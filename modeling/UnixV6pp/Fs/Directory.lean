import UnixV6pp.Fs.INode

/-!
# Directories

A directory is a file of units of 32 bytes.  A record is a head, with an inode
number, the first 24 bytes of a name and the number of further units, and those
units with the rest of the name.  A record with inode number 0 is free.

`NameI` goes through the records with the component of the path it looks for in
`u_dbuf`; `WriteDir` and `UnLink` write a record where it stopped.

* `FileManager.scanStep`, `FileManager.scan` — the inner loop of `NameI`.
* `FileManager.component`, `FileManager.nameI` — a turn of the outer loop, and the whole path.
* `FileManager.makeEntry`, `FileManager.clearEntry`, `FileManager.writeEntry` — changing a record.
-/

namespace UnixV6pp

open Words FileSystem Inode BufferManager

/-- `DiskDirectoryEntry`: the head of a record. -/
structure DirectoryEntry where
  mIno : ℤ
  /-- `m_name[24]`. -/
  mName : ℕ → UInt8
  /-- How many units follow the head. -/
  mAdditionEsize : ℤ
  deriving Inhabited

namespace DirectoryEntry

def DIRSIZ : ℕ := 24
def ADD_DIRSIZ : ℕ := 128

/-- The 32 bytes from the start of `b` on as a head. -/
def ofBytes (b : ℕ → UInt8) : DirectoryEntry :=
  ⟨getInt b 0, fun k => if k < DIRSIZ then b (4 + k) else 0, getInt b 7⟩

/-- The 32 bytes of a head. -/
def bytes (e : DirectoryEntry) : ℕ → UInt8 := fun k =>
  if k < 4 then byteOf e.mIno k
  else if k < 28 then e.mName (k - 4)
  else byteOf e.mAdditionEsize (k - 28)

end DirectoryEntry

open DirectoryEntry

/-- The fields of `u` that a search uses. -/
structure User where
  /-- The characters from `u_dirp` on, as far as memory goes. -/
  uDirp : List UInt8
  uDent : DirectoryEntry
  /-- `addition_entry[128]`. -/
  additionEntry : ℕ → UInt8
  /-- `u_dbuf[152]`. -/
  uDbuf : ℕ → UInt8
  /-- `u_curdir[512]`, which follows `u_dbuf` in memory. -/
  uCurdir : ℕ → UInt8
  uUid : ℤ
  uGid : ℤ
  /-- `u_IOParam.m_Offset`. -/
  mOffset : ℤ
  /-- `u_IOParam.m_Count`. -/
  mCount : ℤ
  deriving Inhabited

/-- A unit that was read: where it is in the directory, and from which block. -/
inductive UnitRead
  /-- Read as a head, with the fields that lead the search on. -/
  | head (offset blkno mIno mAdditionEsize : ℤ)
  /-- Read as a further unit of a name. -/
  | addition (offset blkno : ℤ)
  deriving DecidableEq

/-- A search in a directory. -/
structure Search where
  fs : FsState
  /-- `*pInode`. -/
  ino : Inode
  u : User
  pBuf : Option Buf
  /-- The blocks whose buffers the process holds. -/
  busy : List ℤ
  freeEntryOffset : ℤ
  /-- The units read so far; the code keeps no such list. -/
  reads : List UnitRead

namespace FileManager

/-! ### Paths -/

/-- `Utility::StringLength`. -/
def stringLength : List UInt8 → Except Stop ℕ
  | [] => .error .outside
  | c :: cs => if c = 0 then .ok 0 else do
    let n ← stringLength cs
    return n + 1

/-- The character `/`. -/
def slash : UInt8 := 47

/-- Copy a component of the path to `u_dbuf`, from `pChar` on, up to the next `/` or the end. -/
def copyComponent (dbuf : ℕ → UInt8) (pChar : ℕ) (curchar : UInt8) (dirp : List UInt8) :
    Except Stop ((ℕ → UInt8) × ℕ × UInt8 × List UInt8) :=
  if curchar = slash ∨ curchar = 0 then
    .ok (dbuf, pChar, curchar, dirp)
  else
    match dirp with
    | [] => .error .outside
    | c :: cs =>
      if pChar < ADD_DIRSIZ + DIRSIZ then
        copyComponent (Function.update dbuf pChar curchar) (pChar + 1) c cs
      else
        copyComponent dbuf pChar c cs

/-- Pass over any number of `/`. -/
def skipSlashes (curchar : UInt8) (dirp : List UInt8) : Except Stop (UInt8 × List UInt8) :=
  if curchar = slash then
    match dirp with
    | [] => .error .outside
    | c :: cs => skipSlashes c cs
  else
    .ok (curchar, dirp)

/-! ### Reading units -/

/-- `Bread` in a search: the process would wait for ever for a buffer it holds. -/
def breadBusy (s : Search) (blkno : ℤ) : Except Stop (Buf × Search) :=
  if blkno ∈ s.busy then .error .ownBuffer
  else .ok (bread s.fs blkno, { s with busy := blkno :: s.busy })

/-- `Brelse` in a search, of a buffer if there is one. -/
def brelse (s : Search) (buf : Option Buf) : Search :=
  { s with busy := match buf with
    | some buf => s.busy.erase buf.bBlkno
    | none => s.busy }

/-- Read the next block of the directory if the last one was read to its end. -/
def reload (s : Search) : Except Stop Search := do
  if s.u.mOffset.tmod 512 = 0 then
    let s := brelse s s.pBuf
    let (phyBlkno, ino, fs) ← bmap s.fs s.ino (s.u.mOffset.tdiv 512)
    let (buf, s) ← breadBusy { s with ino := ino, fs := fs } phyBlkno
    return { s with pBuf := some buf }
  else
    return s

/-- The unit that the search has come to, in the buffer it holds. -/
def unitAt (s : Search) : Except Stop (ℤ × (ℕ → UInt8)) :=
  match s.pBuf with
  | none => .error .outside
  | some buf =>
    if s.u.mOffset.tmod 512 < 0 then .error .outside
    else .ok (buf.bBlkno, fun k => buf.bAddr ((s.u.mOffset.tmod 512).toNat + k))

/-- Move on by one unit. -/
def nextUnit (u : User) : User :=
  { u with mOffset := int32 (u.mOffset + 32), mCount := int32 (u.mCount - 1) }

/-- Read a head to `u_dent`. -/
def readHead (s : Search) : Except Stop Search := do
  let s ← reload s
  let (blkno, unit) ← unitAt s
  let dent := ofBytes unit
  return { s with
    u := nextUnit { s.u with uDent := dent }
    reads := s.reads ++ [.head s.u.mOffset blkno dent.mIno dent.mAdditionEsize] }

/-- Read `n` more units to `addition_entry`, from unit `index` of it on. -/
def readAdditions : ℕ → ℕ → Search → Except Stop Search
  | 0, _, s => .ok s
  | n + 1, index, s => do
    let s ← reload s
    let (blkno, unit) ← unitAt s
    if index ≥ 4 then
      -- `addition_entry` has room for four units
      throw .outside
    readAdditions n (index + 1) { s with
      u := nextUnit { s.u with
        additionEntry := fun k => if 32 * index ≤ k ∧ k < 32 * index + 32
          then unit (k - 32 * index) else s.u.additionEntry k }
      reads := s.reads ++ [.addition s.u.mOffset blkno] }

/-! ### The inner loop of `NameI` -/

/-- What is done at a free record before it is passed over: the first one that is large
enough for the characters left in the path is kept in mind, and the unit behind the part
to be used is looked up, with the block of the record still in hand. -/
def noteFree (s : Search) : Except Stop Search := do
  if s.freeEntryOffset ≠ 0 then
    return s
  let length ← stringLength s.u.uDirp
  let useEntries : ℤ := ((length + 7) / 32 : ℕ)
  if useEntries ≤ s.u.uDent.mAdditionEsize then
    let s := { s with freeEntryOffset := s.u.mOffset }
    let behind := (useEntries * 32 + s.u.mOffset) % 2 ^ 32
    if behind ≥ 512 then
      let (phyBlkno, ino, fs) ← bmap s.fs s.ino (int32 (behind / 512))
      let (newBuf, s) ← breadBusy { s with ino := ino, fs := fs } phyBlkno
      return brelse s (some newBuf)
    else
      return s
  else
    return s

/-- The bound in the comparison of names, an unsigned number. -/
def nameLimit (n : ℤ) : ℤ := (24 + n * 32) % 2 ^ 32

/-- Whether the comparison of `u_dbuf` with the name read stops at `i`. -/
def differs (u : User) (i : ℕ) : Bool :=
  if i < DIRSIZ then u.uDbuf i != u.uDent.mName i
  else i < nameLimit u.uDent.mAdditionEsize && u.uDbuf i != u.additionEntry (i - DIRSIZ)

/-- How far the comparison goes. -/
def compareNames (u : User) : ℕ :=
  ((List.range (DIRSIZ + ADD_DIRSIZ)).find? (differs u)).getD (DIRSIZ + ADD_DIRSIZ)

/-- Whether the name read is taken for the one looked for. -/
def matched (u : User) : Bool := nameLimit u.uDent.mAdditionEsize ≤ compareNames u

/-- One turn of the inner loop while `m_Count` is not zero, and whether it ends the loop. -/
def scanStep (s : Search) : Except Stop (Bool × Search) := do
  let s ← readHead s
  if s.u.uDent.mIno = 0 then
    let s ← noteFree s
    return (false, { s with
      u := { s.u with mOffset := int32 (s.u.mOffset + 32 * s.u.uDent.mAdditionEsize) } })
  else
    let s ← readAdditions s.u.uDent.mAdditionEsize.toNat 0 s
    return (matched s.u, s)

/-- The inner loop, for at most so many turns: whether a record matched. -/
def scan : ℕ → Search → Except Stop (Bool × Search)
  | 0, s => if s.u.mCount = 0 then .ok (false, s) else .error .running
  | fuel + 1, s => do
    if s.u.mCount = 0 then
      return (false, s)
    let (found, s) ← scanStep s
    if found then
      return (true, s)
    scan fuel s

/-! ### A component of the path -/

/-- `FileManager::DirectorySearchMode`. -/
inductive DirectorySearchMode
  | OPEN
  | CREATE
  | DELETE
  deriving DecidableEq

/-- What a turn of the outer loop of `NameI` leads to. -/
inductive Outcome
  /-- The inode of this number is looked at next. -/
  | next (number : ℤ)
  /-- `NameI` returns the directory itself. -/
  | parent
  /-- `NameI` returns `NULL`, and `u_pdir` is the directory. -/
  | create
  /-- `NameI` returns `NULL` with an error. -/
  | failed
  deriving DecidableEq

def IEXEC : UInt32 := 0x40
def IWRITE : UInt32 := 0x80

/-- `FileManager::Access`: the error, if access is refused. -/
def access (s : Search) (mode : UInt32) : Option ErrorCode :=
  if mode = IWRITE ∧ (getFS s.fs.sb).sRonly ≠ 0 then
    some .EROFS
  else if s.u.uUid = 0 then
    if mode = IEXEC ∧ s.ino.iMode &&& (IEXEC ||| IEXEC >>> 3 ||| IEXEC >>> 6) = 0 then some .EACCES
    else none
  else
    let mode := if s.u.uUid ≠ s.ino.iUid then
        if s.u.uGid ≠ s.ino.iGid then mode >>> 3 >>> 3 else mode >>> 3
      else mode
    if s.ino.iMode &&& mode ≠ 0 then none else some .EACCES

/-- Give up with an error. -/
def fail (s : Search) (error : ErrorCode) : Outcome × Search :=
  (.failed, { s with fs := { s.fs with uError := error } })

/-- What is done when all records were looked at and none matched. -/
def notFound (mode : DirectorySearchMode) (curchar : UInt8) (s : Search) : Outcome × Search :=
  if mode = .CREATE ∧ curchar = 0 then
    if (access s IWRITE).isSome then
      fail s .EACCES
    else if s.freeEntryOffset ≠ 0 then
      (.create, { s with u := { s.u with mOffset := s.freeEntryOffset - 32 } })
    else
      (.create, { s with ino := { s.ino with iFlag := s.ino.iFlag ||| IUPD } })
  else
    fail s .ENOENT

/-- What is done when a record matched. -/
def foundEntry (mode : DirectorySearchMode) (curchar : UInt8) (s : Search) : Outcome × Search :=
  if mode = .DELETE ∧ curchar = 0 then
    if (access s IWRITE).isSome then
      fail s .EACCES
    else
      (.parent, s)
  else
    (.next s.u.uDent.mIno, s)

/-- The search before the first record is read. -/
def startSearch (fs : FsState) (ino : Inode) (u : User) (dbuf : ℕ → UInt8) (dirp : List UInt8) :
    Search :=
  { fs := fs
    ino := ino
    u := { u with uDirp := dirp, uDbuf := dbuf, mOffset := 0, mCount := ino.iSize.tdiv 32 }
    pBuf := none
    busy := []
    freeEntryOffset := 0
    reads := [] }

/-- The directory is checked and the component that starts with `curchar` is copied: the
error, or the search that is made next.  The process holds the buffers of `busy`. -/
def beginSearch (fs : FsState) (ino : Inode) (u : User) (busy : List ℤ) (curchar : UInt8) :
    Except Stop (Option ErrorCode × UInt8 × Search) := do
  let s := { startSearch fs ino u u.uDbuf u.uDirp with busy := busy }
  if ino.iMode &&& IFMT ≠ 0x4000 then
    return (some .ENOTDIR, curchar, s)
  if (access s IEXEC).isSome then
    return (some .EACCES, curchar, s)
  let (dbuf, pChar, curchar, dirp) ← copyComponent u.uDbuf 0 curchar u.uDirp
  let (curchar, dirp) ← skipSlashes curchar dirp
  return (none, curchar,
    { startSearch fs ino u (fun k => if k < pChar then dbuf k else 0) dirp with busy := busy })

/-- One turn of the outer loop of `NameI`; the inner loop may take so many turns. -/
def component (fuel : ℕ) (mode : DirectorySearchMode) (fs : FsState) (ino : Inode) (u : User)
    (busy : List ℤ) (curchar : UInt8) : Except Stop (Outcome × UInt8 × Search) := do
  let (error, curchar, s) ← beginSearch fs ino u busy curchar
  match error with
  | some error =>
    let (r, s) := fail s error
    return (r, curchar, s)
  | none =>
    let (found, s) ← scan fuel s
    let s := brelse s s.pBuf
    let (r, s) := if found then foundEntry mode curchar s else notFound mode curchar s
    return (r, curchar, s)

/-! ### The whole path -/

/-- How `NameI` ends. -/
structure Lookup where
  /-- The inode returned, if one is. -/
  pInode : Option Inode
  /-- `u_pdir`, if it was set. -/
  uPdir : Option Inode
  fs : FsState
  u : User
  /-- The blocks whose buffers the process still holds. -/
  busy : List ℤ

section NameI

variable {κ : Type*} (enter : κ → FsState → Inode → ℤ → κ × FsState × Option Inode)

/-- The outer loop of `NameI`.  `enter` lets go of the directory (`IPut`) and gets the inode of
the number found (`IGet`); `κ` is what these depend on and change besides. -/
def nameLoop (mode : DirectorySearchMode) :
    ℕ → κ → FsState → Inode → User → List ℤ → UInt8 → Except Stop Lookup
  | 0, _, _, _, _, _, _ => .error .running
  | fuel + 1, k, fs, ino, u, busy, curchar =>
    if fs.uError ≠ .NOERROR then
      .ok ⟨none, none, fs, u, busy⟩
    else if curchar = 0 then
      .ok ⟨some ino, none, fs, u, busy⟩
    else do
      let (outcome, curchar, s) ← component fuel mode fs ino u busy curchar
      match outcome with
      | .next number =>
        match enter k s.fs s.ino number with
        | (k, fs, some ino) => nameLoop mode fuel k fs ino s.u s.busy curchar
        | (_, fs, none) => return ⟨none, none, fs, s.u, s.busy⟩
      | .parent => return ⟨some s.ino, none, s.fs, s.u, s.busy⟩
      | .create => return ⟨none, some s.ino, s.fs, s.u, s.busy⟩
      | .failed => return ⟨none, none, s.fs, s.u, s.busy⟩

/-- `FileManager::NameI`, from the root or the current directory. -/
def nameI (mode : DirectorySearchMode) (fuel : ℕ) (k : κ) (fs : FsState)
    (rootDirInode uCdir : Inode) (u : User) : Except Stop Lookup :=
  match u.uDirp with
  | [] => .error .outside
  | c :: dirp => do
    let ino := if c = slash then rootDirInode else uCdir
    let (curchar, dirp) ← skipSlashes c dirp
    if curchar = 0 ∧ mode ≠ .OPEN then
      return ⟨none, none, { fs with uError := .ENOENT }, { u with uDirp := dirp }, []⟩
    nameLoop enter mode fuel k fs ino { u with uDirp := dirp } [] curchar

end NameI

/-! ### Changing a record -/

/-- The bytes of `u` from `u_dent` on: `addition_entry`, `u_dbuf` and `u_curdir` follow it. -/
def entryBytes (u : User) : ℕ → UInt8 := fun k =>
  if k < 32 then u.uDent.bytes k
  else if k < 32 + 128 then u.additionEntry (k - 32)
  else if k < 32 + 128 + 152 then u.uDbuf (k - (32 + 128))
  else u.uCurdir (k - (32 + 128 + 152))

/-- `Utility::StringLength` of `u_dbuf`, which runs on to `u_curdir`. -/
def dbufLength (u : User) : Except Stop ℕ :=
  stringLength ((List.range 152).map u.uDbuf ++ (List.range 512).map u.uCurdir)

/-- `WriteDir` up to the call of `WriteI`: the record for the inode `number` is made. -/
def makeEntry (u : User) (number : ℤ) : Except Stop User := do
  let length ← dbufLength u
  let esize : ℕ := (length + 7) / 32
  return { u with
    uDent := ⟨number, fun k => if k < DIRSIZ then u.uDbuf k else u.uDent.mName k, esize⟩
    additionEntry := fun k => if k < ADD_DIRSIZ ∧ k < esize * 32 then u.uDbuf (DIRSIZ + k)
      else u.additionEntry k }

/-- `UnLink` up to the call of `WriteI`: the record found is made a free one. -/
def clearEntry (u : User) : User :=
  { u with
    mOffset := int32 (u.mOffset - (32 + u.uDent.mAdditionEsize * 32))
    uDent := { u.uDent with mIno := 0 }
    additionEntry := fun k => if k < ADD_DIRSIZ then 0 else u.additionEntry k }

/-- The call of `WriteI` in `WriteDir` and `UnLink`: the record in `u_dent` and behind it
is written to the directory at `m_Offset`. -/
def writeEntry (buffer : ℤ → Block) (fs : FsState) (ino : Inode) (u : User) :
    Except Stop Transfer :=
  writeI buffer
    { fs := fs
      ino := ino
      io := ⟨0, u.mOffset, 32 + u.uDent.mAdditionEsize * 32⟩
      mem := fun a => entryBytes u a.toNat }

end FileManager
end UnixV6pp
