import UnixV6pp.Fs.Directory
import UnixV6pp.Fs.Kernel

/-!
# The system calls on files

The calls as programs of a process: what they do to the tables of the kernel, where they
may go to sleep, and in which order.  What depends on the contents of files and on the
arguments of a call is left open: whether an access is refused, which inode number a
directory has for a name, how often a process sleeps for the disk.

* `iGet`, `iPut`, `updateInodeTable` — the table of in-core inodes.
* `nameI` — the references and the locks that `NameI` takes on its way.
* `openCall`, `creat`, `link`, `unLink`, `close`, `fork` and others — the calls.
-/

namespace UnixV6pp

/-- A piece of a program of the kernel. -/
abbrev KCode (n : ℕ) := Code (Kernel n) (Action n)

namespace SystemCalls

open Inode Kernel Code FileManager

variable {n : ℕ}

/-! ### What is left open -/

/-- So many sleeps for the disk or for a buffer. -/
def sleeps : ℕ → KCode n Unit
  | 0 => pure ()
  | k + 1 => do
    sleep
    sleeps k

/-- Any number of sleeps for the disk or for a buffer. -/
def diskWaits : KCode n Unit := do
  let k ← pick
  sleeps k

/-- One way or the other. -/
def either : KCode n Bool := do
  let k ← pick
  return k = 0

/-- Any number, also a negative one. -/
def pickInt : KCode n ℤ := do
  let k ← pick
  let m ← pick
  return k - m

/-- Any flags. -/
def pickFlags : KCode n UInt32 := do
  let k ← pick
  return UInt32.ofNat k

/-- The call may find out that it fails. -/
def mayFail : KCode n Unit := do
  let fails ← either
  whenever fails (perform .setError)

/-- The process does not come back. -/
def halt : KCode n Unit := waitWhile fun _ => some .setError

/-- Whether `u_error` is set. -/
def failed (p : Fin n) : KCode n Bool := do
  let s ← state
  return (s.proc p).uError

/-! ### The table of in-core inodes -/

/-- `IUpdate` of an inode that was changed, on a file system that can be written. -/
def iUpdate (i : Slot) : KCode n Unit := do
  let s ← state
  let ronly ← either
  whenever ((s.inode i).iFlag &&& (IUPD ||| IACC) != 0 && !ronly) do
    diskWaits
    perform (.writeDisk i)
    diskWaits

/-- `ITrunc`. -/
def iTrunc (i : Slot) : KCode n Unit := do
  let s ← state
  whenever ((s.inode i).iMode &&& (IFCHR &&& IFBLK) == 0) do
    diskWaits
    perform (.iTrunc i)

/-- What `IPut` does for an inode that no directory names any more. -/
def freeInode (i : Slot) : KCode n Unit := do
  iTrunc i
  perform (.clearMode i)

/-- What `IPut` does when the last reference is given back. -/
def tearDown (i : Slot) (src : Source) : KCode n Unit := do
  perform (.lockLast i src)
  let s ← state
  whenever ((s.inode i).iNlink ≤ 0) (freeInode i)
  iUpdate i

/-- `InodeTable::IPut`. -/
def iPut (i : Slot) (src : Source) : KCode n Unit := do
  let s ← state
  whenever ((s.inode i).iCount = 1) (tearDown i src)
  perform (.release i ((s.inode i).iCount = 1) src)

/-- `InodeTable::IGet`: while the inode is in the table and locked, the process sleeps. -/
def lockedSlot (s : Kernel n) (dev number : ℤ) : Option (Action n) :=
  match s.isLoaded dev number with
  | some i => if (s.inode i).locked then some (.want i .pInode) else none
  | none => none

/-- The block of the inode is read; when that fails the inode is given back. -/
def readInode (i : Slot) : KCode n (Option Slot) := do
  diskWaits
  let fails ← either
  if fails then do
    perform .setError
    iPut i .hand
    return none
  else do
    perform (.iCopy i)
    return some i

/-- `InodeTable::IGet`. -/
def iGet (dev number : ℤ) : KCode n (Option Slot) := do
  waitWhile fun s => lockedSlot s dev number
  let s ← state
  match s.isLoaded dev number, s.getFreeInode with
  | some i, _ => do
    perform (.hold i)
    return some i
  | none, some i => do
    perform (.load i dev number)
    readInode i
  | none, none => do
    perform .setError
    return none

/-- `InodeTable::UpdateInodeTable` for one entry of the table. -/
def updateInode (i : Slot) : KCode n Unit := do
  let s ← state
  whenever (!(s.inode i).locked && (s.inode i).iCount != 0) do
    perform (.syncLock i)
    iUpdate i
    perform (.syncPrele i)

def updateInodes : List Slot → KCode n Unit
  | [] => pure ()
  | i :: is => do
    updateInode i
    updateInodes is

/-- `InodeTable::UpdateInodeTable`. -/
def updateInodeTable : KCode n Unit := updateInodes (List.finRange 100)

/-- The loop of `IAlloc`, for at most so many inodes from the list of free ones. -/
def iAllocLoop (dev : ℤ) : ℕ → KCode n (Option Slot)
  | 0 => do
    perform .setError
    return none
  | k + 1 => do
    let number ← pickInt
    let r ← iGet dev number
    match r with
    | none => return none
    | some i => do
      let s ← state
      if (s.inode i).iMode = 0 then do
        perform (.clean i)
        return some i
      else do
        iPut i .hand
        iAllocLoop dev k

/-- `FileSystem::IAlloc`. -/
def iAlloc (dev : ℤ) : KCode n (Option Slot) := do
  diskWaits
  let k ← pick
  iAllocLoop dev k

/-- `Inode::NFlock`, which is also `Inode::Plock`. -/
def nFlock (i : Slot) : KCode n Unit := do
  waitWhile fun s => if (s.inode i).locked then some (.want i (.inode i.val)) else none
  perform (.lock i)

/-- `Inode::NFrele`, which is also `Inode::Prele`. -/
def nFrele (i : Slot) : KCode n Unit := perform (.prele i)

/-! ### Paths -/

/-- What `NameI` leads to. -/
inductive Found
  | inode (i : Slot)
  /-- `NULL`, with the directory in `u_pdir`. -/
  | create (pdir : Slot)
  /-- The directory, for `DELETE`, with `u_dent.m_ino`. -/
  | parent (pdir : Slot) (mIno : ℤ)
  | null

/-- Give up. -/
def giveUp (i : Slot) : KCode n Found := do
  perform .setError
  iPut i .hand
  return .null

/-- The outer loop of `NameI`, for so many components. -/
def nameLoop (p : Fin n) (mode : DirectorySearchMode) : ℕ → Slot → KCode n Found
  | 0, i => do
    let error ← failed p
    if error then giveUp i else return .inode i
  | k + 1, i => do
    let refused ← either
    if refused then giveUp i
    else do
      -- the directory is searched
      diskWaits
      mayFail
      let found ← either
      if found then do
        let mIno ← pickInt
        if k = 0 ∧ mode = .DELETE then do
          let refused ← either
          if refused then giveUp i else return .parent i mIno
        else do
          let s ← state
          iPut i .hand
          let r ← iGet (s.inode i).iDev mIno
          match r with
          | none => return .null
          | some j => nameLoop p mode k j
      else if k = 0 ∧ mode = .CREATE then do
        let refused ← either
        if refused then giveUp i else return .create i
      else giveUp i

/-- Where a search starts, at the root or at the current directory. -/
def startOf (p : Fin n) (v : Via) (s : Kernel n) : Slot :=
  match v with
  | .root => s.rootDirInode
  | _ => (s.proc p).uCdir

/-- `FileManager::NameI`. -/
def nameI (p : Fin n) (mode : DirectorySearchMode) : KCode n Found := do
  let fromRoot ← either
  let v : Via := if fromRoot then .root else .cwd
  let s ← state
  let i := startOf p v s
  perform (.borrow i v)
  let _ ← iGet (s.inode i).iDev (s.inode i).iNumber
  perform .unborrow
  let k ← pick
  if k = 0 ∧ mode ≠ .OPEN then giveUp i else nameLoop p mode k i

/-! ### Open files -/

/-- `OpenFileTable::FAlloc`. -/
def fAlloc (p : Fin n) : KCode n (Option (Fd × FileSlot)) := do
  let s ← state
  match s.allocFreeSlot p, s.freeFile with
  | some fd, some f => do
    perform (.fAlloc fd f)
    return some (fd, f)
  | _, _ => do
    perform .setError
    return none

/-- `FileManager::Open1`; `refused` is what the checks of the access find. -/
def open1 (p : Fin n) (i : Slot) (mode : UInt32) (trf : ℕ) : KCode n Unit := do
  whenever (trf != 2) mayFail
  let error ← failed p
  if error then iPut i .hand
  else do
    whenever (trf == 1) (iTrunc i)
    perform (.prele i)
    let r ← fAlloc p
    match r with
    | none => iPut i .hand
    | some (fd, f) => do
      perform (.openFile f mode i)
      -- the device is opened
      mayFail
      let error ← failed p
      whenever error do
        perform (.undoOpen fd f)
        iPut i .hand

/-- `OpenFileTable::CloseF`. -/
def closeF (f : FileSlot) : KCode n Unit := do
  let s ← state
  whenever ((s.file f).fFlag &&& FPIPE != 0) (perform (.closePipe (s.file f).fInode))
  if (s.file f).fCount ≤ 1 then iPut (s.file f).fInode (.file f) else perform (.decFile f)

/-- `WriteDir` for the directory `pdir`. -/
def writeDir (pdir : Slot) : KCode n Unit := do
  let s ← state
  perform (.setFields pdir (IACC ||| IUPD) (s.inode pdir).iMode (s.inode pdir).iNlink)
  diskWaits
  mayFail
  iPut pdir .hand

/-- `FileManager::MakNode`. -/
def makNode (pdir : Slot) (mode : UInt32) : KCode n (Option Slot) := do
  let s ← state
  let r ← iAlloc (s.inode pdir).iDev
  match r with
  | none => do
    -- the directory in `u_pdir` is not given back
    perform (.forget pdir)
    return none
  | some i => do
    perform (.setFields i (IACC ||| IUPD) (mode ||| IALLOC) 1)
    writeDir pdir
    return some i

/-! ### The calls -/

/-- A system call from its beginning to its end. -/
def call (k : KCode n Unit) : KCode n Unit := do
  perform .enter
  k
  perform .leave

/-- `FileManager::Open`. -/
def openCall (p : Fin n) : KCode n Unit := do
  let mode ← pickFlags
  let r ← nameI p .OPEN
  match r with
  | .inode i => open1 p i mode 0
  | _ => pure ()

/-- `FileManager::Creat`. -/
def creat (p : Fin n) : KCode n Unit := do
  let mode ← pickFlags
  let r ← nameI p .CREATE
  match r with
  | .inode i => do
    open1 p i FWRITE 1
    let s ← state
    perform (.setFields i 0 ((s.inode i).iMode ||| mode) (s.inode i).iNlink)
  | .create pdir => do
    let error ← failed p
    if error then perform (.forget pdir)
    else do
      let r ← makNode pdir mode
      match r with
      | none => pure ()
      | some i => open1 p i FWRITE 2
  | _ => pure ()

/-- `FileManager::Link`. -/
def link (p : Fin n) : KCode n Unit := do
  let r ← nameI p .OPEN
  match r with
  | .inode i => do
    let s ← state
    let refused ← either
    if 255 ≤ (s.inode i).iNlink ∨ refused then iPut i .hand
    else do
      perform (.clearLock i)
      let r ← nameI p .CREATE
      match r with
      | .inode j => do
        perform .setError
        iPut j .hand
        iPut i .hand
      | .create pdir => do
        let error ← failed p
        let s ← state
        if error then do
          perform (.forget pdir)
          iPut i .hand
        else if (s.inode pdir).iDev ≠ (s.inode i).iDev then do
          iPut pdir .hand
          perform .setError
          iPut i .hand
        else do
          writeDir pdir
          let s ← state
          perform (.setFields i IUPD (s.inode i).iMode ((s.inode i).iNlink + 1))
          iPut i .hand
      | _ => iPut i .hand
  | _ => pure ()

/-- `FileManager::UnLink`. -/
def unLink (p : Fin n) : KCode n Unit := do
  let r ← nameI p .DELETE
  match r with
  | .parent pdir mIno => do
    perform (.prele pdir)
    let s ← state
    let r ← iGet (s.inode pdir).iDev mIno
    match r with
    | none => halt
    | some i => do
      let refused ← either
      if refused then do
        iPut pdir .hand
        iPut i .hand
      else do
        -- the record is cleared
        let s ← state
        perform (.setFields pdir (IACC ||| IUPD) (s.inode pdir).iMode (s.inode pdir).iNlink)
        diskWaits
        mayFail
        let s ← state
        perform (.setFields i IUPD (s.inode i).iMode ((s.inode i).iNlink - 1))
        iPut pdir .hand
        iPut i .hand
  | _ => pure ()

/-- `FileManager::Close`. -/
def close (p : Fin n) (fd : Fd) : KCode n Unit := do
  let s ← state
  match (s.proc p).uOfiles fd with
  | none => perform .setError
  | some f => do
    perform (.clearFd fd f)
    closeF f

/-- `FileManager::Dup`. -/
def dup (p : Fin n) (fd : Fd) : KCode n Unit := do
  let s ← state
  match (s.proc p).uOfiles fd, s.allocFreeSlot p with
  | some f, some newFd => perform (.dup newFd f)
  | _, _ => perform .setError

/-- `FileManager::Rdwr` for a file that is no pipe. -/
def rdwr (p : Fin n) (fd : Fd) (mode : UInt32) : KCode n Unit := do
  let s ← state
  match (s.proc p).uOfiles fd with
  | none => perform .setError
  | some f => do
    let i := (s.file f).fInode
    perform (.borrow i (.file fd f))
    nFlock i
    let s ← state
    perform (.setFields i (if mode = FREAD then IACC else IACC ||| IUPD)
      (s.inode i).iMode (s.inode i).iNlink)
    diskWaits
    mayFail
    nFrele i
    perform .unborrow

/-- `ProcessManager::Fork`; any entry of the process table that is not in use may be taken. -/
def fork (p : Fin n) : KCode n Unit := do
  let k ← pick
  let s ← state
  if h : k < n then
    if (s.proc ⟨k, h⟩).live ∨ ⟨k, h⟩ = p then perform .setError
    else do
      perform (.clone ⟨k, h⟩)
      diskWaits
  else perform .setError

/-- `FileManager::Pipe`. -/
def pipe (p : Fin n) : KCode n Unit := do
  let dev ← pickInt
  let r ← iAlloc dev
  match r with
  | none => pure ()
  | some i => do
    let r ← fAlloc p
    match r with
    | none => iPut i .hand
    | some (fd, fr) => do
      let r ← fAlloc p
      match r with
      | none => do
        perform (.undoPipe fd fr)
        iPut i .hand
      | some (_, fw) => perform (.pipe fr fw i)

/-- `FileManager::ChDir`. -/
def chDir (p : Fin n) : KCode n Unit := do
  let r ← nameI p .OPEN
  match r with
  | .inode i => do
    let refused ← either
    if refused then iPut i .hand
    else do
      let s ← state
      iPut (s.proc p).uCdir (.cdir (some i))
      perform (.prele i)
  | _ => pure ()

/-- `Text::XFree`, and `p_textp = NULL`. -/
def xFree (t : TextSlot) : KCode n Unit := do
  perform (.decText t)
  let s ← state
  match (s.text t).xIptr with
  | some i => whenever ((s.text t).xCount = 0) (iPut i (.text t))
  | none => pure ()
  perform .dropText

/-- The old text segment of the process is given up, if it has one. -/
def xFreeOld (p : Fin n) : KCode n Unit := do
  let s ← state
  match (s.proc p).pTextp with
  | some t => xFree t
  | none => pure ()

/-- The part of `Exec` that finds a text segment for the file. -/
def findText (i : Slot) : KCode n Unit := do
  let s ← state
  match s.sharedText i, s.freeText with
  | some t, _ => perform (.shareText t)
  | none, some t => perform (.newText t i)
  | none, none => halt

/-- `ProcessManager::Exec`. -/
def execCall (p : Fin n) : KCode n Unit := do
  let r ← nameI p .OPEN
  match r with
  | .inode i => do
    waitWhile fun s => if 10 ≤ s.exeCnt then some .exeSleep else none
    perform .exeInc
    let refused ← either
    if refused then do
      iPut i .hand
      let s ← state
      perform (.exeDec (10 ≤ s.exeCnt))
    else do
      -- the header is read
      diskWaits
      let rejected ← either
      if rejected then iPut i .hand
      else do
        xFreeOld p
        findText i
        diskWaits
        iPut i .hand
        let s ← state
        perform (.exeDec (10 ≤ s.exeCnt))
  | _ => pure ()

/-- The part of `Exit` that closes the files at the descriptors in the list. -/
def exitFiles (p : Fin n) : List Fd → KCode n Unit
  | [] => pure ()
  | fd :: fds => do
    let s ← state
    match (s.proc p).uOfiles fd with
    | some f => do
      perform (.takeFd fd f)
      closeF f
      perform (.dropFd fd)
    | none => pure ()
    exitFiles p fds

/-- `Process::Exit`. -/
def exitCall (p : Fin n) : KCode n Unit := do
  exitFiles p (List.finRange 15)
  let s ← state
  iPut (s.proc p).uCdir (.cdir none)
  xFreeOld p
  diskWaits
  perform .exit

end SystemCalls
end UnixV6pp
