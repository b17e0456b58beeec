import UnixV6pp.Fs.INode
import UnixV6pp.Lib.Threads
import Mathlib.Data.Fin.Basic
import Mathlib.Data.List.FinRange
import Mathlib.Data.Fintype.Card

/-!
# The tables of the kernel

All processes share the table of in-core inodes, the table of open files and the table
of text segments.  A process runs in the kernel until it goes to sleep, so what it does
in between is a row of actions on these tables.

What the code does not keep is which process holds what: it only counts, and a lock is a
flag.  Each process has a record of it here, `Local`, that the actions keep up to date
and no test of the code looks at.

* `Kernel` — the tables and the processes.
* `Action`, `exec` — what a process does to them without going to sleep.
-/

namespace UnixV6pp

/-- An entry of the table of in-core inodes. -/
abbrev Slot := Fin 100

/-- An entry of the table of open files. -/
abbrev FileSlot := Fin 100

/-- An entry of the table of text segments. -/
abbrev TextSlot := Fin 50

/-- An open file descriptor. -/
abbrev Fd := Fin 15

/-- An in-core inode with the device it is on. -/
structure InodeEntry extends Inode where
  iDev : ℤ

/-- An inode on the disk, as far as the counts depend on it. -/
structure DiskInode where
  dMode : UInt32
  dNlink : ℤ

structure File where
  fFlag : UInt32
  fCount : ℤ
  fInode : Slot
  /-- The file stands for one reference to its inode. -/
  owns : Bool

structure Text where
  xIptr : Option Slot
  xCount : ℤ
  /-- The segment stands for one reference to its inode. -/
  owns : Bool

/-- A sleep channel, which is an address. -/
inductive Chan
  /-- An entry of the table of inodes, or one behind its end. -/
  | inode (k : ℕ)
  /-- The local variable `pInode` of `IGet`, on the kernel stack. -/
  | pInode
  /-- `ExeCnt`. -/
  | exeCnt
  deriving DecidableEq

/-- How a process gets at an inode that it holds no reference of its own to. -/
inductive Via
  | cwd
  | root
  | file (fd : Fd) (f : FileSlot)
  deriving DecidableEq

/-- An inode used without a reference, with its device and number at that time. -/
structure Borrowed where
  slot : Slot
  via : Via
  iDev : ℤ
  iNumber : ℤ

/-- Whose reference `IPut` gives back. -/
inductive Source
  | hand
  | file (f : FileSlot)
  | text (t : TextSlot)
  /-- The current directory; the one that takes its place, if any. -/
  | cdir (new : Option Slot)
  deriving DecidableEq

/-- What a process has in hand. -/
structure Local where
  /-- How many references to the inode it has to give back or to hand on. -/
  refs : Slot → ℕ
  /-- It has set `ILOCK` in `IGet`, `NFlock` or `Plock` and has not cleared it since. -/
  inside : Slot → Bool
  /-- The inode whose last reference it is giving back, and whose reference that is. -/
  tearing : Option (Slot × Source)
  borrowed : Option Borrowed
  /-- The descriptor that `Exit` is closing. -/
  closingFd : Option Fd
  /-- The open file that it is about to leave. -/
  closingFile : Option FileSlot
  /-- The open files just allocated, that own no reference yet. -/
  fresh : FileSlot → Bool
  /-- The reference of the current directory has been given back. -/
  cdirTaken : Bool
  /-- It has left its text segment, which `p_textp` still names. -/
  dropping : Bool

/-- Nothing in hand, outside of any call. -/
def Local.empty : Local where
  refs := fun _ => 0
  inside := fun _ => false
  tearing := none
  borrowed := none
  closingFd := none
  closingFile := none
  fresh := fun _ => false
  cdirTaken := false
  dropping := false

/-- Where a process is. -/
inductive Whereabouts
  /-- A free entry of the process table, or a zombie. -/
  | gone
  | user
  /-- In a system call. -/
  | kernel
  deriving DecidableEq

structure Process where
  whereabouts : Whereabouts
  /-- What it sleeps on. -/
  pWchan : Option Chan
  /-- The inode whose lock it sleeps for. -/
  awaiting : Option Slot
  uOfiles : Fd → Option FileSlot
  uCdir : Slot
  pTextp : Option TextSlot
  /-- Whether `u_error` is set. -/
  uError : Bool
  /-- The device and the number of the inode when it got the first reference in hand. -/
  ids : Slot → ℤ × ℤ
  loc : Local

/-- How many descriptors name the file. -/
def Process.fdCount (q : Process) (f : FileSlot) : ℕ :=
  (Finset.univ.filter fun fd => q.uOfiles fd = some f).card

def Process.live (q : Process) : Bool := q.whereabouts ≠ .gone

/-- The tables, and `n` processes. -/
structure Kernel (n : ℕ) where
  inode : Slot → InodeEntry
  file : FileSlot → File
  text : TextSlot → Text
  proc : Fin n → Process
  /-- The inodes on the disk, by device and number. -/
  disk : ℤ → ℤ → DiskInode
  rootDirInode : Slot
  exeCnt : ℤ
  /-- How many references to the inode nobody will give back any more. -/
  lost : Slot → ℕ

namespace InodeEntry

open Inode

def locked (e : InodeEntry) : Bool := e.iFlag &&& ILOCK != 0

def wanted (e : InodeEntry) : Bool := e.iFlag &&& IWANT != 0

end InodeEntry

namespace Kernel

open Inode

def FREAD : UInt32 := 0x1
def FWRITE : UInt32 := 0x2
def FPIPE : UInt32 := 0x4
def IALLOC : UInt32 := 0x8000
def IREAD : UInt32 := 0x100

variable {n : ℕ} (s : Kernel n) (p : Fin n) (i : Slot)

/-! ### Searches -/

/-- `InodeTable::IsLoaded`. -/
def isLoaded (dev number : ℤ) : Option Slot :=
  (List.finRange 100).find? fun i =>
    (s.inode i).iDev = dev ∧ (s.inode i).iNumber = number ∧ (s.inode i).iCount ≠ 0

/-- `InodeTable::GetFreeInode`. -/
def getFreeInode : Option Slot := (List.finRange 100).find? fun i => (s.inode i).iCount = 0

/-- `OpenFiles::AllocFreeSlot`. -/
def allocFreeSlot : Option Fd :=
  (List.finRange 15).find? fun fd => (s.proc p).uOfiles fd = none

/-- The search of `OpenFileTable::FAlloc`. -/
def freeFile : Option FileSlot := (List.finRange 100).find? fun f => (s.file f).fCount = 0

/-- The search of `Exec` for a segment with this inode. -/
def sharedText : Option TextSlot := (List.finRange 50).find? fun t => (s.text t).xIptr = some i

/-- The search of `Exec` for a free segment. -/
def freeText : Option TextSlot := (List.finRange 50).find? fun t => (s.text t).xIptr = none

/-! ### Small changes -/

def setInode (e : InodeEntry) : Kernel n := { s with inode := Function.update s.inode i e }

def setFile (f : FileSlot) (e : File) : Kernel n := { s with file := Function.update s.file f e }

def setText (t : TextSlot) (e : Text) : Kernel n := { s with text := Function.update s.text t e }

def setProc (e : Process) : Kernel n := { s with proc := Function.update s.proc p e }

/-- What `p` has in hand. -/
abbrev loc : Local := (s.proc p).loc

def setLoc (l : Local) : Kernel n := s.setProc p { s.proc p with loc := l }

def setFlag (flag : UInt32) : Kernel n :=
  s.setInode i { s.inode i with iFlag := flag }

def setCount (count : ℤ) : Kernel n :=
  s.setInode i { s.inode i with iCount := count }

/-- `ProcessManager::WakeUpAll`. -/
def wakeUpAll (chan : Chan) : Kernel n :=
  { s with proc := fun q =>
      if (s.proc q).pWchan = some chan then { s.proc q with pWchan := none, awaiting := none }
      else s.proc q }

/-- `Inode::Prele`, which is also `Inode::NFrele`. -/
def prele : Kernel n :=
  let s := s.setFlag i ((s.inode i).iFlag &&& ~~~ILOCK)
  if (s.inode i).wanted then
    (s.setFlag i ((s.inode i).iFlag &&& ~~~IWANT)).wakeUpAll (.inode i)
  else s

/-- One more reference to the inode is in hand. -/
def take : Kernel n :=
  s.setProc p { s.proc p with
    ids := if (s.loc p).refs i = 0 then
        Function.update (s.proc p).ids i ((s.inode i).iDev, (s.inode i).iNumber)
      else (s.proc p).ids
    loc := { s.loc p with refs := Function.update (s.loc p).refs i ((s.loc p).refs i + 1) } }

/-- One reference to the inode less is in hand. -/
def give : Kernel n :=
  s.setLoc p { s.loc p with refs := Function.update (s.loc p).refs i ((s.loc p).refs i - 1) }

def setInside (b : Bool) : Kernel n :=
  s.setLoc p { s.loc p with inside := Function.update (s.loc p).inside i b }

def setTearing (v : Option (Slot × Source)) : Kernel n :=
  s.setLoc p { s.loc p with tearing := v }

def setClosing (f : Option FileSlot) : Kernel n :=
  s.setLoc p { s.loc p with closingFile := f }

def setFresh (f : FileSlot) (b : Bool) : Kernel n :=
  s.setLoc p { s.loc p with fresh := Function.update (s.loc p).fresh f b }

def setFd (fd : Fd) (f : Option FileSlot) : Kernel n :=
  s.setProc p { s.proc p with uOfiles := Function.update (s.proc p).uOfiles fd f }

end Kernel

/-! ### Actions -/

/-- What a process does without going to sleep. -/
inductive Action (n : ℕ)
  | enter
  | leave
  | setError
  /-- It sets `IWANT` and goes to sleep for the lock of the inode. -/
  | want (i : Slot) (chan : Chan)
  /-- It sets `ILOCK` in `NFlock` or `Plock`. -/
  | lock (i : Slot)
  | prele (i : Slot)
  /-- It clears `ILOCK` and nothing else. -/
  | clearLock (i : Slot)
  /-- `IGet` of an inode that is loaded. -/
  | hold (i : Slot)
  /-- `IGet` of an inode that is not, up to the reading of the block. -/
  | load (i : Slot) (dev number : ℤ)
  | iCopy (i : Slot)
  /-- `IPut` of the last reference: `ILOCK` is set. -/
  | lockLast (i : Slot) (src : Source)
  | iTrunc (i : Slot)
  | clearMode (i : Slot)
  | writeDisk (i : Slot)
  /-- The end of `IPut`, and what its caller does next to the owner of the reference. -/
  | release (i : Slot) (last : Bool) (src : Source)
  | syncLock (i : Slot)
  | syncPrele (i : Slot)
  | borrow (i : Slot) (v : Via)
  | unborrow
  /-- A call returns and has not given back the inode. -/
  | forget (i : Slot)
  | clean (i : Slot)
  | setFields (i : Slot) (flag mode : UInt32) (nlink : ℤ)
  | fAlloc (fd : Fd) (f : FileSlot)
  | openFile (f : FileSlot) (flag : UInt32) (i : Slot)
  | undoOpen (fd : Fd) (f : FileSlot)
  | undoPipe (fd : Fd) (f : FileSlot)
  | pipe (fr fw : FileSlot) (i : Slot)
  | clearFd (fd : Fd) (f : FileSlot)
  | takeFd (fd : Fd) (f : FileSlot)
  | dropFd (fd : Fd)
  | closePipe (i : Slot)
  /-- `f_count--` when other references to the file are left. -/
  | decFile (f : FileSlot)
  | dup (fd : Fd) (f : FileSlot)
  | clone (child : Fin n)
  | exit
  | shareText (t : TextSlot)
  | newText (t : TextSlot) (i : Slot)
  | decText (t : TextSlot)
  | dropText
  | exeSleep
  | exeInc
  | exeDec (wake : Bool)

namespace Kernel

open Inode

variable {n : ℕ} (s : Kernel n) (p : Fin n) (i : Slot)

def enter : Kernel n := s.setProc p { s.proc p with uError := false, whereabouts := .kernel }

def leave : Kernel n :=
  if (s.proc p).whereabouts = .kernel then s.setProc p { s.proc p with whereabouts := .user }
  else s

def setError : Kernel n := s.setProc p { s.proc p with uError := true }

/-- The process sleeps on the channel. -/
def sleepOn (chan : Chan) (awaiting : Option Slot) : Kernel n :=
  s.setProc p { s.proc p with pWchan := some chan, awaiting := awaiting }

def want (chan : Chan) : Kernel n :=
  (s.setFlag i ((s.inode i).iFlag ||| IWANT)).sleepOn p chan (some i)

def lock : Kernel n := (s.setFlag i ((s.inode i).iFlag ||| ILOCK)).setInside p i true

def clearLock : Kernel n := (s.setFlag i ((s.inode i).iFlag &&& ~~~ILOCK)).setInside p i false

def hold : Kernel n :=
  let s := s.setCount i ((s.inode i).iCount + 1)
  ((s.setFlag i ((s.inode i).iFlag ||| ILOCK)).take p i).setInside p i true

def load (dev number : ℤ) : Kernel n :=
  let s := s.setInode i { s.inode i with
    iDev := dev
    iNumber := number
    iFlag := ILOCK
    iCount := (s.inode i).iCount + 1
    iLastr := -1 }
  (s.take p i).setInside p i true

/-- `Inode::ICopy`. -/
def iCopy : Kernel n :=
  let d := s.disk (s.inode i).iDev (s.inode i).iNumber
  s.setInode i { s.inode i with iMode := d.dMode, iNlink := d.dNlink }

/-- The owner of a reference hands it over to the process. -/
def takeFrom : Source → Kernel n
  | .hand => s
  | .file f => (s.setFile f { s.file f with owns := false }).take p i
  | .text t => (s.setText t { s.text t with owns := false }).take p i
  | .cdir _ => (s.setLoc p { s.loc p with cdirTaken := true }).take p i

def lockLast (src : Source) : Kernel n :=
  ((s.setFlag i ((s.inode i).iFlag ||| ILOCK)).takeFrom p i src).setTearing p (some (i, src))

/-- The fields that `Inode::ITrunc` sets. -/
def iTrunc : Kernel n :=
  s.setInode i { s.inode i with
    iSize := 0
    iFlag := (s.inode i).iFlag ||| IUPD
    iMode := (s.inode i).iMode &&& ~~~(ILARG &&& IRWXU &&& IRWXG &&& IRWXO)
    iNlink := 1 }

def clearMode : Kernel n := s.setInode i { s.inode i with iMode := 0 }

/-- The copy that `Inode::IUpdate` makes. -/
def writeDisk : Kernel n :=
  { s with disk := fun dev number =>
      if dev = (s.inode i).iDev ∧ number = (s.inode i).iNumber then
        ⟨(s.inode i).iMode, (s.inode i).iNlink⟩
      else s.disk dev number }

/-- What becomes of the owner of a reference that was given back. -/
def settle : Source → Kernel n
  | .hand => s
  | .file f =>
    (s.setFile f { s.file f with fCount := (s.file f).fCount - 1, owns := false }).setClosing p none
  | .text t => s.setText t { s.text t with xIptr := none, owns := false }
  | .cdir none => s
  | .cdir (some j) =>
    (s.setProc p { s.proc p with uCdir := j, loc := { s.loc p with cdirTaken := false } }).give p j

/-- The inode is taken out of the table. -/
def invalidate : Kernel n :=
  let s := (s.prele i).setFlag i 0
  s.setInode i { s.inode i with iNumber := -1 }

/-- The reference is not in hand any more; the last one was, whoever owned it. -/
def letGo (last : Bool) (src : Source) : Kernel n :=
  if last then (s.give p i).setTearing p none
  else match src with
    | .hand => s.give p i
    | .cdir none => s.setLoc p { s.loc p with cdirTaken := true }
    | _ => s

def dropCount : Kernel n := (s.setCount i ((s.inode i).iCount - 1)).prele i

def release (last : Bool) (src : Source) : Kernel n :=
  let s := if last then s.invalidate i else s
  (((s.dropCount i).setInside p i false).letGo p i last src).settle p src

def syncLock : Kernel n := s.setFlag i ((s.inode i).iFlag ||| ILOCK)

def borrow (v : Via) : Kernel n :=
  s.setLoc p { s.loc p with borrowed := some ⟨i, v, (s.inode i).iDev, (s.inode i).iNumber⟩ }

def unborrow : Kernel n := s.setLoc p { s.loc p with borrowed := none }

def forget : Kernel n :=
  ({ s with lost := Function.update s.lost i (s.lost i + 1) } : Kernel n).give p i

/-- `Inode::Clean`. -/
def clean : Kernel n :=
  s.setInode i { s.inode i with
    iMode := 0
    iNlink := 0
    iUid := -1
    iGid := -1
    iSize := 0
    iLastr := -1
    iAddr := fun _ => 0 }

def setFields (flag mode : UInt32) (nlink : ℤ) : Kernel n :=
  s.setInode i { s.inode i with
    iFlag := (s.inode i).iFlag ||| flag
    iMode := mode
    iNlink := nlink }

/-- `OpenFileTable::FAlloc`, once both searches were successful. -/
def fAlloc (fd : Fd) (f : FileSlot) : Kernel n :=
  let s := s.setFile f { s.file f with fCount := (s.file f).fCount + 1 }
  (s.setFd p fd (some f)).setFresh p f true

def openFile (f : FileSlot) (flag : UInt32) : Kernel n :=
  let s := s.setFile f { s.file f with fFlag := flag, fInode := i, owns := true }
  (s.setFresh p f false).give p i

def undoOpen (fd : Fd) (f : FileSlot) : Kernel n :=
  let i := (s.file f).fInode
  let s := (s.setFd p fd none).setFile f
    { s.file f with fCount := (s.file f).fCount - 1, owns := false }
  s.take p i

def undoPipe (fd : Fd) (f : FileSlot) : Kernel n :=
  let s := s.setFile f { s.file f with fCount := 0 }
  (s.setFd p fd none).setFresh p f false

def pipe (fr fw : FileSlot) : Kernel n :=
  let s := s.setFile fr ⟨FREAD ||| FPIPE, (s.file fr).fCount, i, true⟩
  let s := s.setFile fw ⟨FWRITE ||| FPIPE, (s.file fw).fCount, i, true⟩
  let s := s.setInode i { s.inode i with iCount := 2, iFlag := IACC ||| IUPD, iMode := IALLOC }
  (((s.setFresh p fr false).setFresh p fw false).give p i).setInside p i false

def clearFd (fd : Fd) (f : FileSlot) : Kernel n :=
  (s.setFd p fd none).setClosing p (some f)

def takeFd (fd : Fd) (f : FileSlot) : Kernel n :=
  (s.setLoc p { s.loc p with closingFd := some fd }).setClosing p (some f)

def dropFd (fd : Fd) : Kernel n :=
  s.setProc p { s.proc p with
    uOfiles := Function.update (s.proc p).uOfiles fd none
    loc := { s.loc p with closingFd := none } }

/-- What `CloseF` does for a pipe. -/
def closePipe : Kernel n :=
  let s := s.setInode i { s.inode i with iMode := (s.inode i).iMode &&& ~~~(IREAD ||| 0x80) }
  (s.wakeUpAll (.inode (i.val + 1))).wakeUpAll (.inode (i.val + 2))

def decFile (f : FileSlot) : Kernel n :=
  (s.setFile f { s.file f with fCount := (s.file f).fCount - 1 }).setClosing p none

def dup (fd : Fd) (f : FileSlot) : Kernel n :=
  (s.setFd p fd (some f)).setFile f { s.file f with fCount := (s.file f).fCount + 1 }

/-- What `Process::Clone` does to the open files of a process. -/
def countFiles (q : Process) : Kernel n :=
  { s with file := fun f => { s.file f with fCount := (s.file f).fCount + q.fdCount f } }

/-- What `Process::Clone` does to the text segment of a process. -/
def countText (q : Process) : Kernel n :=
  match q.pTextp with
  | some t => s.setText t { s.text t with xCount := (s.text t).xCount + 1 }
  | none => s

/-- `Process::Clone`, and the copy of the user structure; only an entry of the process table that
is not in use is taken. -/
def clone (child : Fin n) : Kernel n :=
  if (s.proc child).live then s else
  let q := s.proc p
  let s := (s.countFiles q).countText q
  let s := s.setCount q.uCdir ((s.inode q.uCdir).iCount + 1)
  s.setProc child { q with
    whereabouts := .user
    pWchan := none
    awaiting := none
    ids := (s.proc child).ids
    loc := (s.proc child).loc }

/-- The process becomes a zombie. -/
def exit : Kernel n :=
  s.setProc p { s.proc p with
    whereabouts := .gone
    pTextp := none
    loc := { s.loc p with cdirTaken := false } }

def shareText (t : TextSlot) : Kernel n :=
  let s := s.setText t { s.text t with xCount := (s.text t).xCount + 1 }
  s.setProc p { s.proc p with pTextp := some t }

def newText (t : TextSlot) : Kernel n :=
  let s := s.setCount i ((s.inode i).iCount + 1)
  let s := s.setText t ⟨some i, 1, true⟩
  s.setProc p { s.proc p with pTextp := some t }

def decText (t : TextSlot) : Kernel n :=
  let s := s.setText t { s.text t with xCount := (s.text t).xCount - 1 }
  s.setLoc p { s.loc p with dropping := true }

def dropText : Kernel n :=
  s.setProc p { s.proc p with pTextp := none, loc := { s.loc p with dropping := false } }

def exeDec (wake : Bool) : Kernel n :=
  let s := if wake then s.wakeUpAll .exeCnt else s
  { s with exeCnt := s.exeCnt - 1 }

/-- What the action does to the tables. -/
def exec : Action n → Kernel n
  | .enter => s.enter p
  | .leave => s.leave p
  | .setError => s.setError p
  | .want i chan => s.want p i chan
  | .lock i => s.lock p i
  | .prele i => (s.prele i).setInside p i false
  | .clearLock i => s.clearLock p i
  | .hold i => s.hold p i
  | .load i dev number => s.load p i dev number
  | .iCopy i => s.iCopy i
  | .lockLast i src => s.lockLast p i src
  | .iTrunc i => s.iTrunc i
  | .clearMode i => s.clearMode i
  | .writeDisk i => s.writeDisk i
  | .release i last src => s.release p i last src
  | .syncLock i => s.syncLock i
  | .syncPrele i => s.prele i
  | .borrow i v => s.borrow p i v
  | .unborrow => s.unborrow p
  | .forget i => s.forget p i
  | .clean i => s.clean i
  | .setFields i flag mode nlink => s.setFields i flag mode nlink
  | .fAlloc fd f => s.fAlloc p fd f
  | .openFile f flag i => s.openFile p i f flag
  | .undoOpen fd f => s.undoOpen p fd f
  | .undoPipe fd f => s.undoPipe p fd f
  | .pipe fr fw i => s.pipe p i fr fw
  | .clearFd fd f => s.clearFd p fd f
  | .takeFd fd f => s.takeFd p fd f
  | .dropFd fd => s.dropFd p fd
  | .closePipe i => s.closePipe i
  | .decFile f => s.decFile p f
  | .dup fd f => s.dup p fd f
  | .clone child => s.clone p child
  | .exit => s.exit p
  | .shareText t => s.shareText p t
  | .newText t i => s.newText p i t
  | .decText t => s.decText p t
  | .dropText => s.dropText p
  | .exeSleep => s.sleepOn p .exeCnt none
  | .exeInc => { s with exeCnt := s.exeCnt + 1 }
  | .exeDec wake => s.exeDec wake

end Kernel

end UnixV6pp
