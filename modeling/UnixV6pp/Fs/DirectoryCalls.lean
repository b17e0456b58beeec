import UnixV6pp.Fs.OldDirectory
import UnixV6pp.Fs.Ownership

/-!
# The system calls on a directory, in both formats

`Creat`, `Link`, `UnLink` and the search of `NameI` as they work on one directory.  The two
versions of the system differ in how they search a directory and change a record; the calls
are the same code in both, so they are written once, over the four functions that differ.

The inode of a file is kept with the fields the calls test: where its blocks lie is another
matter.  Tables that are full and devices other than that of the directory are left out.

* `Format` — the code that depends on the format; `oos1`, `oos2` — the two versions.
* `Name`, `Path` — the last component of a path, of 1 to 24 bytes, and what stands behind it.
* `Format.call` — a system call.
-/

namespace UnixV6pp

open Words FileSystem Inode BufferManager FileManager

namespace FileManager

/-! ### The two versions -/

/-- What depends on the format of a directory. -/
structure Format where
  /-- A turn of the outer loop of `NameI`. -/
  component : ℕ → DirectorySearchMode → FsState → Inode → User → List ℤ → UInt8 →
    Except Stop (Outcome × UInt8 × Search)
  /-- `WriteDir` up to the call of `WriteI`. -/
  makeEntry : User → ℤ → Except Stop User
  /-- `UnLink` up to the call of `WriteI`. -/
  clearEntry : User → User
  /-- The call of `WriteI`. -/
  writeEntry : (ℤ → Block) → FsState → Inode → User → Except Stop Transfer

/-- Entries of 32 bytes. -/
def oos1 : Format where
  component := Oos1.component
  makeEntry u number := .ok (Oos1.makeEntry u number)
  clearEntry := Oos1.clearEntry
  writeEntry := Oos1.writeEntry

/-- Records with further units. -/
def oos2 : Format where
  component := component
  makeEntry := makeEntry
  clearEntry := clearEntry
  writeEntry := writeEntry

/-! ### Names and paths -/

/-- A component of a path, of 1 to 24 bytes. -/
@[ext] structure Name where
  bytes : List UInt8
  ne_nil : bytes ≠ []
  length_le : bytes.length ≤ 24
  ne_zero : ∀ c ∈ bytes, c ≠ 0
  ne_slash : ∀ c ∈ bytes, c ≠ slash
  deriving DecidableEq

/-- The name with zeros behind it. -/
def Name.pad (name : Name) : ℕ → UInt8 := fun k => name.bytes.getD k 0

/-- A path from the directory on. -/
structure Path where
  name : Name
  /-- How many `/` follow. -/
  slashes : ℕ
  /-- The character that comes then, 0 where the path ends. -/
  next : UInt8
  /-- The characters behind, as far as memory goes. -/
  dirp : List UInt8
  next_ne : next ≠ slash
  next_eq : slashes = 0 → next = 0

/-- The characters of the path. -/
def Path.chars (p : Path) : List UInt8 :=
  p.name.bytes ++ (List.replicate p.slashes slash ++ p.next :: p.dirp)

/-! ### The state -/

/-- The fields of the inode of a file that the calls test and set. -/
structure Node where
  iMode : UInt32
  iNlink : ℤ
  iUid : ℤ
  iGid : ℤ

/-- A device, and the inodes of its files by their numbers. -/
structure Disk (ι : Type) where
  d : Files ι
  nodes : ℤ → Node

/-- What a call reports. -/
inductive Result
  /-- The inode of the file it found, made, or gave or took a name. -/
  | file (number : ℤ)
  | error (e : ErrorCode)
  deriving DecidableEq

/-- What is reported unless `u_error` is set. -/
def report (fs : FsState) (number : ℤ) : Result :=
  if fs.uError = .NOERROR then .file number else .error fs.uError

variable {ι : Type} [DecidableEq ι]

/-- The device after a call, when `Trap` has cleared `u_error`. -/
def Disk.after (disk : Disk ι) (i : ι) (fs : FsState) (ino : Inode) : Disk ι :=
  { disk with d := disk.d.set { fs with uError := .NOERROR } i ino }

/-- The inode of a file is another one. -/
def Disk.setNode (disk : Disk ι) (number : ℤ) (node : Node) : Disk ι :=
  { disk with nodes := Function.update disk.nodes number node }

/-! ### Checks on the inode of a file -/

def IALLOC : UInt32 := 0x8000
def IFDIR : UInt32 := 0x4000
def ISVTX : UInt32 := 0x200

/-- The bits of the mode that `Creat` takes from its argument. -/
def newACCMode (mode : UInt32) : UInt32 := mode &&& (IRWXU ||| IRWXG ||| IRWXO)

/-- `MakNode` on the inode that `IAlloc` has found. -/
def makNode (uid gid : ℤ) (mode : UInt32) : Node := ⟨mode ||| IALLOC, 1, uid, gid⟩

/-- What `Open1` finds wrong with a file to be written. -/
def openError (s : Search) (node : Node) : Option ErrorCode :=
  let s := { s with ino := { s.ino with iMode := node.iMode, iUid := node.iUid, iGid := node.iGid } }
  if node.iMode &&& IFMT = IFDIR then some .EISDIR else access s IWRITE

/-- `ITrunc`, on the fields kept. -/
def Node.itrunc (node : Node) : Node :=
  if node.iMode &&& (IFCHR &&& IFBLK) ≠ 0 then node
  else { node with
    iMode := node.iMode &&& ~~~(ILARG &&& IRWXU &&& IRWXG &&& IRWXO)
    iNlink := 1 }

/-- `Link` refuses a file. -/
def linkError (uid : ℤ) (node : Node) : Option ErrorCode :=
  if node.iNlink ≥ 255 then some .EMLINK
  else if node.iMode &&& IFMT = IFDIR ∧ uid ≠ 0 then some .EPERM
  else none

/-- `UnLink` refuses a file. -/
def unlinkError (uid : ℤ) (node : Node) : Option ErrorCode :=
  if node.iMode &&& IFMT = IFDIR ∧ uid ≠ 0 then some .EPERM else none

/-! ### The calls -/

namespace Format

variable (fmt : Format) (buffer : ℤ → Block) (i : ι)

/-- `NameI` in the directory: the turn of its outer loop that looks for the name. -/
def nameI (mode : DirectorySearchMode) (d : Files ι) (u : User) (p : Path) :
    Except Stop (Outcome × Search) :=
  match p.chars with
  | [] => .error .outside
  | curchar :: dirp => do
    let (outcome, _, s) ← fmt.component ((d.inodes i).iSize.toNat / 32) mode d.fs (d.inodes i)
      { u with uDirp := dirp } [] curchar
    return (outcome, s)

/-- `WriteDir`. -/
def writeDir (s : Search) (number : ℤ) : Except Stop Transfer := do
  let u ← fmt.makeEntry s.u number
  fmt.writeEntry buffer s.fs s.ino u

/-- A search that finds a file, or goes on with the rest of the path from there. -/
def lookup (u : User) (p : Path) (disk : Disk ι) : Except Stop (Result × Disk ι) := do
  let (outcome, s) ← fmt.nameI i .OPEN disk.d u p
  match outcome with
  | .next number => return (report s.fs number, disk.after i s.fs s.ino)
  | _ => return (.error s.fs.uError, disk.after i s.fs s.ino)

/-- `FileManager::Creat`; `IAlloc` gives the inode `number`. -/
def creat (u : User) (p : Path) (mode : UInt32) (number : ℤ) (disk : Disk ι) :
    Except Stop (Result × Disk ι) := do
  let (outcome, s) ← fmt.nameI i .CREATE disk.d u p
  if s.fs.uError ≠ .NOERROR then
    return (.error s.fs.uError, disk.after i s.fs s.ino)
  match outcome with
  | .next found =>
    let node := disk.nodes found
    match openError s node with
    | some e =>
      -- the mode is changed all the same
      return (.error e, (disk.after i s.fs s.ino).setNode found
        { node with iMode := node.iMode ||| newACCMode mode })
    | none =>
      return (.file found, (disk.after i s.fs s.ino).setNode found
        { node.itrunc with iMode := node.itrunc.iMode ||| newACCMode mode })
  | .create => do
    let t ← fmt.writeDir buffer s number
    return (report t.fs number, (disk.after i t.fs t.ino).setNode number
      (makNode s.u.uUid s.u.uGid (newACCMode mode &&& ~~~ISVTX)))
  | _ => return (.error s.fs.uError, disk.after i s.fs s.ino)

/-- `FileManager::Link`, once the file `found` is known and not refused. -/
def linkTo (u : User) (p : Path) (found : ℤ) (disk : Disk ι) : Except Stop (Result × Disk ι) := do
  let (outcome, s) ← fmt.nameI i .CREATE disk.d u p
  match outcome with
  | .next _ => return (if s.fs.uError = .NOERROR then .error .EEXIST else .error s.fs.uError,
      disk.after i s.fs s.ino)
  | .create => do
    if s.fs.uError ≠ .NOERROR then
      return (.error s.fs.uError, disk.after i s.fs s.ino)
    let t ← fmt.writeDir buffer s found
    let node := disk.nodes found
    return (report t.fs found,
      (disk.after i t.fs t.ino).setNode found { node with iNlink := node.iNlink + 1 })
  | _ => return (.error s.fs.uError, disk.after i s.fs s.ino)

/-- `FileManager::Link`. -/
def link (u : User) (old new : Path) (disk : Disk ι) : Except Stop (Result × Disk ι) := do
  let (outcome, s) ← fmt.nameI i .OPEN disk.d u old
  if s.fs.uError ≠ .NOERROR then
    return (.error s.fs.uError, disk.after i s.fs s.ino)
  match outcome with
  | .next found =>
    match linkError s.u.uUid (disk.nodes found) with
    | some e => return (.error e, disk.after i s.fs s.ino)
    | none => fmt.linkTo buffer i s.u new found (disk.after i s.fs s.ino)
  | _ => return (.error s.fs.uError, disk.after i s.fs s.ino)

/-- `FileManager::UnLink`. -/
def unLink (u : User) (p : Path) (disk : Disk ι) : Except Stop (Result × Disk ι) := do
  let (outcome, s) ← fmt.nameI i .DELETE disk.d u p
  match outcome with
  | .parent => do
    let found := s.u.uDent.mIno
    let node := disk.nodes found
    match unlinkError s.u.uUid node with
    | some e => return (.error e, disk.after i s.fs s.ino)
    | none => do
      let t ← fmt.writeEntry buffer s.fs s.ino (fmt.clearEntry s.u)
      return (report t.fs found,
        (disk.after i t.fs t.ino).setNode found { node with iNlink := node.iNlink - 1 })
  | _ => return (.error s.fs.uError, disk.after i s.fs s.ino)

end Format

/-- A system call on names in the directory. -/
inductive DirCall
  | lookup (p : Path)
  /-- The number is that of the inode which `IAlloc` has free. -/
  | creat (p : Path) (last : p.next = 0) (mode : UInt32) (number : ℤ)
      (number_mem : 0 < number ∧ number < inodeCount)
  | link (old new : Path) (last : old.next = 0 ∧ new.next = 0)
  | unlink (p : Path) (last : p.next = 0)

/-- A call made by a process with such a user structure. -/
def Format.call (fmt : Format) (buffer : ℤ → Block) (i : ι) (u : User) (disk : Disk ι) :
    DirCall → Except Stop (Result × Disk ι)
  | .lookup p => fmt.lookup i u p disk
  | .creat p _ mode number _ => fmt.creat buffer i u p mode number disk
  | .link old new _ => fmt.link buffer i u old new disk
  | .unlink p _ => fmt.unLink buffer i u p disk

end FileManager
end UnixV6pp
