import UnixV6pp.Fs.Directory

/-!
# Directories in the old format

Before records could have further units, a directory was a file of entries of 32 bytes:
an inode number and a name of 28 bytes.  `src/oos1` keeps that code; the block map, `WriteI`,
`Access` and `NameI` around the turn of its inner loop are the same in both versions.

An entry is kept in the structure of the new format, with no further units.

* `componentWith` — a turn of the outer loop of `NameI`, over what differs.
* `Oos1.scanStep`, `Oos1.component` — the inner loop of the old `NameI`.
* `Oos1.makeEntry`, `Oos1.clearEntry`, `Oos1.writeEntry` — changing an entry.
-/

namespace UnixV6pp

open Words FileSystem Inode BufferManager FileManager

namespace FileManager

/-! ### What both versions of `NameI` share -/

/-- Copy a component of the path to `u_dbuf`, which has room for `limit` bytes, from `pChar` on,
up to the next `/` or the end. -/
def copyUpTo (limit : ℕ) (dbuf : ℕ → UInt8) (pChar : ℕ) (curchar : UInt8) (dirp : List UInt8) :
    Except Stop ((ℕ → UInt8) × ℕ × UInt8 × List UInt8) :=
  if curchar = slash ∨ curchar = 0 then
    .ok (dbuf, pChar, curchar, dirp)
  else
    match dirp with
    | [] => .error .outside
    | c :: cs =>
      if pChar < limit then
        copyUpTo limit (Function.update dbuf pChar curchar) (pChar + 1) c cs
      else
        copyUpTo limit dbuf pChar c cs

/-- The directory is checked and the component that starts with `curchar` is copied: the
error, or the search that is made next.  The process holds the buffers of `busy`. -/
def beginSearchWith (limit : ℕ) (fs : FsState) (ino : Inode) (u : User) (busy : List ℤ)
    (curchar : UInt8) : Except Stop (Option ErrorCode × UInt8 × Search) := do
  let s := { startSearch fs ino u u.uDbuf u.uDirp with busy := busy }
  if ino.iMode &&& IFMT ≠ 0x4000 then
    return (some .ENOTDIR, curchar, s)
  if (access s IEXEC).isSome then
    return (some .EACCES, curchar, s)
  let (dbuf, pChar, curchar, dirp) ← copyUpTo limit u.uDbuf 0 curchar u.uDirp
  let (curchar, dirp) ← skipSlashes curchar dirp
  return (none, curchar,
    { startSearch fs ino u (fun k => if k < pChar then dbuf k else 0) dirp with busy := busy })

/-- The inner loop of `NameI`: the turn `step` is made until `m_Count` is zero or a turn ends
the loop, at most so many times. -/
def scanWith (step : Search → Except Stop (Bool × Search)) : ℕ → Search → Except Stop (Bool × Search)
  | 0, s => if s.u.mCount = 0 then .ok (false, s) else .error .running
  | fuel + 1, s => do
    if s.u.mCount = 0 then
      return (false, s)
    let (found, s) ← step s
    if found then
      return (true, s)
    scanWith step fuel s

/-- One turn of the outer loop of `NameI`; the inner loop may take so many turns. -/
def componentWith (limit : ℕ) (step : Search → Except Stop (Bool × Search)) (fuel : ℕ)
    (mode : DirectorySearchMode) (fs : FsState) (ino : Inode) (u : User) (busy : List ℤ)
    (curchar : UInt8) : Except Stop (Outcome × UInt8 × Search) := do
  let (error, curchar, s) ← beginSearchWith limit fs ino u busy curchar
  match error with
  | some error =>
    let (r, s) := fail s error
    return (r, curchar, s)
  | none =>
    let (found, s) ← scanWith step fuel s
    let s := brelse s s.pBuf
    let (r, s) := if found then foundEntry mode curchar s else notFound mode curchar s
    return (r, curchar, s)

/-! ### The new format -/

theorem copyComponent_eq (dbuf : ℕ → UInt8) (pChar : ℕ) (curchar : UInt8) (dirp : List UInt8) :
    copyComponent dbuf pChar curchar dirp =
      copyUpTo (DirectoryEntry.ADD_DIRSIZ + DirectoryEntry.DIRSIZ) dbuf pChar curchar dirp := by
  induction dirp generalizing dbuf pChar curchar with
  | nil => rw [copyComponent, copyUpTo]
  | cons c cs ih =>
    rw [copyComponent, copyUpTo]
    simp only [ih]

theorem scan_eq (fuel : ℕ) (s : Search) : scan fuel s = scanWith scanStep fuel s := by
  induction fuel generalizing s with
  | zero => rfl
  | succ fuel ih =>
    rw [scan, scanWith]
    simp only [ih]

theorem beginSearch_eq (fs : FsState) (ino : Inode) (u : User) (busy : List ℤ) (curchar : UInt8) :
    beginSearch fs ino u busy curchar =
      beginSearchWith (DirectoryEntry.ADD_DIRSIZ + DirectoryEntry.DIRSIZ) fs ino u busy curchar := by
  unfold beginSearch beginSearchWith
  simp only [copyComponent_eq]

/-- **The new version** of `NameI` in these terms. -/
theorem component_eq : component =
    componentWith (DirectoryEntry.ADD_DIRSIZ + DirectoryEntry.DIRSIZ) scanStep := by
  funext fuel mode fs ino u busy curchar
  unfold componentWith
  simp only [← beginSearch_eq, ← scan_eq]
  rfl

end FileManager

namespace Oos1

/-- `DirectoryEntry::DIRSIZ`. -/
def DIRSIZ : ℕ := 28

/-! ### Entries -/

/-- The 32 bytes from the start of `b` on as an entry. -/
def ofBytes (b : ℕ → UInt8) : DirectoryEntry :=
  ⟨getInt b 0, fun k => if k < DIRSIZ then b (4 + k) else 0, 0⟩

/-- The 32 bytes of an entry. -/
def bytes (e : DirectoryEntry) : ℕ → UInt8 := fun k =>
  if k < 4 then byteOf e.mIno k else e.mName (k - 4)

/-! ### The inner loop of `NameI` -/

/-- Read an entry to `u_dent`. -/
def readEntry (s : Search) : Except Stop Search := do
  let s ← reload s
  let (blkno, unit) ← unitAt s
  let dent := ofBytes unit
  return { s with
    u := nextUnit { s.u with uDent := dent }
    reads := s.reads ++ [.head s.u.mOffset blkno dent.mIno dent.mAdditionEsize] }

/-- Whether the comparison of `u_dbuf` with the name read stops at `i`. -/
def differs (u : User) (i : ℕ) : Bool := u.uDbuf i != u.uDent.mName i

/-- How far the comparison goes. -/
def compareNames (u : User) : ℕ := ((List.range DIRSIZ).find? (differs u)).getD DIRSIZ

/-- Whether the name read is taken for the one looked for. -/
def matched (u : User) : Bool := DIRSIZ ≤ compareNames u

/-- One turn of the inner loop while `m_Count` is not zero, and whether it ends the loop. -/
def scanStep (s : Search) : Except Stop (Bool × Search) := do
  let s ← readEntry s
  if s.u.uDent.mIno = 0 then
    return (false, if s.freeEntryOffset = 0 then { s with freeEntryOffset := s.u.mOffset } else s)
  else
    return (matched s.u, s)

/-- One turn of the outer loop of `NameI`. -/
def component : ℕ → DirectorySearchMode → FsState → Inode → User → List ℤ → UInt8 →
    Except Stop (Outcome × UInt8 × Search) :=
  componentWith DIRSIZ scanStep

/-! ### Changing an entry -/

/-- `WriteDir` up to the call of `WriteI`: the entry for the inode `number` is made. -/
def makeEntry (u : User) (number : ℤ) : User :=
  { u with uDent := ⟨number, fun k => if k < DIRSIZ then u.uDbuf k else u.uDent.mName k, 0⟩ }

/-- `UnLink` up to the call of `WriteI`: the entry found is made a free one. -/
def clearEntry (u : User) : User :=
  { u with mOffset := int32 (u.mOffset - 32), uDent := { u.uDent with mIno := 0 } }

/-- The call of `WriteI` in `WriteDir` and `UnLink`: the entry in `u_dent` is written to the
directory at `m_Offset`. -/
def writeEntry (buffer : ℤ → Block) (fs : FsState) (ino : Inode) (u : User) :
    Except Stop Transfer :=
  writeI buffer
    { fs := fs
      ino := ino
      io := ⟨0, u.mOffset, 32⟩
      mem := fun a => bytes u.uDent a.toNat }

end Oos1
end UnixV6pp
