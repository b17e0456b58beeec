import UnixV6pp.Lib.Runs
import UnixV6pp.Fs.Creation
import UnixV6pp.Fs.FailedLoad
import UnixV6pp.Fs.InodeUpdate

/-!
# Handing out inodes, step by step

`s_inode` holds the numbers of some inodes that were free when they were put there.  `IAlloc`
takes the last one, and if the inode turns out to be in use, the one before it.  It fills the list
again from the disk when it finds it empty, but only at the beginning of the call.

A step of a process leads from one point where it may sleep to the next: the lock of the list,
the lock of an inode, and every block that is read or written.

* `Place` — where a process sleeps.
* `Sys` — the table of inodes, the disk, and all processes.
* `Step` — what one of them does next.
* `Right` — what is expected of a step of `IAlloc`.
-/

namespace UnixV6pp

open Words FileSystem Inode Flags

namespace InodeAlloc

/-! ### States -/

/-- Where a process is in `IAlloc`, `IGet` and `IPut`. -/
inductive Place
  | away
  /-- In `IAlloc`, until the list is not locked. -/
  | waiting
  /-- In `IAlloc`, reading a sector of the inode zone. -/
  | searching (k : ℕ)
  /-- In `IAlloc`, in front of the list once more. -/
  | turning
  /-- In the `IGet` of `IAlloc`, until the inode is not locked. -/
  | getting (number : ℤ)
  /-- In the `IGet` of `IAlloc`, reading the inode. -/
  | loading (i : Slot)
  /-- Behind the `IGet` of `IAlloc`, with an inode that was in the table. -/
  | found (i : Slot)
  /-- Behind the `IGet` of `IAlloc`, without an entry for the inode. -/
  | overflow
  /-- Behind `IAlloc`, with an inode that it has still to fill. -/
  | given (i : Slot)
  /-- In the `ITrunc` of `IPut`; whether it is back in the loop of `IAlloc` afterwards. -/
  | emptying (i : Slot) (again : Bool)
  /-- In the `IUpdate` of `IPut`. -/
  | updating (i : Slot) (again : Bool)
  /-- In another `IGet`, reading the inode. -/
  | opening (i : Slot)

/-- The entry that the process alone refers to. -/
def Place.slot : Place → Option Slot
  | loading i | given i | emptying i _ | updating i _ | opening i => some i
  | _ => none

/-- The processes with the table, the super block and the disk that they share. -/
structure Sys (ι : Type) where
  core : InCore
  place : ι → Place
  /-- The references to an entry that are in no such call: open files and directories. -/
  refs : Slot → ℕ
  /-- The inodes that `IAlloc` has returned and that have not been freed since. -/
  out : ℤ → Prop
  /-- What a process that is in `IAlloc` could have seen meanwhile: this inode was not free, or
  there was no entry for it. -/
  past : ι → ℤ → Prop

/-- The mode of an inode on the disk. -/
def diskMode (fs : FsState) (number : ℤ) : ℤ :=
  getInt (fs.blk (sectorOf number)) (16 * slotOf number)

/-- The inodes of a device with `sIsize` sectors of inodes. -/
def IsNumber (sIsize : ℕ) (number : ℤ) : Prop := 0 ≤ number ∧ number < 8 * sIsize

/-- `IUpdate` has something to write. -/
def Dirty (ino : Inode) : Prop := ino.iFlag &&& (IUPD ||| IACC) ≠ 0

/-- The value that is read from the top of the list, anything if there is no top. -/
def Reads (sb : SuperBlock) (v : ℤ) : Prop :=
  ∀ w, readAt 100 sb.sInode (sb.sNinode - 1) = .ok w → v = w

namespace Sys

variable {ι : Type} [DecidableEq ι] (s : Sys ι) (p : ι)

abbrev sb : SuperBlock := s.core.fs.sb

def go (place : Place) : Sys ι := { s with place := Function.update s.place p place }

def setSb (sb : SuperBlock) : Sys ι := { s with core := s.core.setSb sb }

/-- A process goes on, and an entry, the references to it and the file system change. -/
def put (place : Place) (i : Slot) (refs : ℕ) (ino : Inode) (fs : FsState) : Sys ι :=
  { s with
    core := s.core.set i ino fs
    refs := Function.update s.refs i refs
    place := Function.update s.place p place }

/-- An inode has been handed out, or freed. -/
def setOut (number : ℤ) (out : Prop) : Sys ι :=
  { s with out := Function.update s.out number out }

/-- `IGet` for `IAlloc` up to its first sleep; if it returns an inode in use, `IAlloc` gives it
back, which is not the last reference. -/
def look (number : ℤ) : Sys ι :=
  match s.core.isLoaded number with
  | some i =>
    let ino := s.core.mInode i
    if ino.iFlag &&& ILOCK ≠ 0 then
      s.put p (.getting number) i (s.refs i) { ino with iFlag := ino.iFlag ||| IWANT } s.core.fs
    else
      let ino := { ino with iCount := ino.iCount + 1, iFlag := ino.iFlag ||| ILOCK }
      if ino.iMode = 0 then
        s.put p (.found i) i (s.refs i) ino s.core.fs
      else
        s.put p .turning i (s.refs i) (prele { ino with iCount := ino.iCount - 1 }) s.core.fs
  | none =>
    match s.core.getFreeInode with
    | none => s.go p .overflow
    | some i => s.put p (.loading i) i (s.refs i) (s.core.prepared i number) s.core.fs

/-- `IAlloc` takes a number from the list and goes to `IGet` with it. -/
def take (number : ℤ) : Sys ι :=
  (s.setSb { s.sb with sNinode := s.sb.sNinode - 1 }).look p number

/-- `IPut` of the last reference, up to its first sleep. -/
def startPut (i : Slot) (again : Bool) (ino : Inode) : Sys ι :=
  s.put p (if ino.iNlink ≤ 0 then .emptying i again else .updating i again) i 0
    { ino with iFlag := ino.iFlag ||| ILOCK } s.core.fs

/-- The inode as `IGet` has read it. -/
def loaded (i : Slot) : Inode :=
  icopy (s.core.mInode i) (s.core.fs.blk (sectorOf (s.core.number i))) (s.core.number i)

/-- Whether an inode is free: its mode on the disk is 0, and it is not in the table. -/
def Free (number : ℤ) : Prop := diskMode s.core.fs number = 0 ∧ s.core.isLoaded number = none

/-- What can be seen now is added to what could be seen before. -/
def note : Sys ι :=
  { s with past := fun p n => s.past p n ∨ ¬s.Free n ∨ s.core.getFreeInode = none }

end Sys

/-! ### Steps -/

/-- What can be told of a step. -/
inductive Event (ι : Type)
  | quiet
  /-- A process calls `IAlloc`. -/
  | calls (p : ι)
  /-- `IAlloc` reads the top of the list, which has so many numbers. -/
  | reads (p : ι) (depth : ℤ)
  /-- `IAlloc` returns an inode. -/
  | returns (p : ι) (i : Slot)
  /-- `IAlloc` returns `NULL`. -/
  | fails (p : ι) (error : ErrorCode)
  /-- `IFree` is called. -/
  | frees (number : ℤ)

open Sys

variable {ι : Type} [DecidableEq ι]

/-- A step, on a device with `sIsize` sectors of inodes. -/
inductive Step (sIsize : ℕ) : Sys ι → Event ι → Sys ι → Prop
  | call {s : Sys ι} {p} (h : s.place p = .away) :
      Step sIsize s (.calls p) { (s.setSb (getFS s.sb)).go p .waiting with
        past := Function.update s.past p fun _ => False }
  /-- The list is empty, and is locked. -/
  | search {s : Sys ι} {p} (h : s.place p = .waiting) (hlock : s.sb.sIlock = 0)
      (hempty : s.sb.sNinode ≤ 0) :
      Step sIsize s .quiet
        ((s.setSb { s.sb with sIlock := s.sb.sIlock + 1 }).go p (.searching 0))
  | first {s : Sys ι} {p number} (h : s.place p = .waiting) (hlock : s.sb.sIlock = 0)
      (hcached : 0 < s.sb.sNinode) (hread : Reads s.sb number) :
      Step sIsize s (.reads p s.sb.sNinode) (s.take p number)
  | sector {s : Sys ι} {p k sb} (h : s.place p = .searching k) (hk : k < sIsize)
      (hnote : s.core.noteInodes (s.core.fs.blk (inodeZoneStartSector + k))
        ((List.range 8).map (8 * k + ·)) s.sb = .ok sb) (hroom : sb.sNinode < 100) :
      Step sIsize s .quiet ((s.setSb sb).go p (.searching (k + 1)))
  /-- The list is full. -/
  | full {s : Sys ι} {p k sb number} (h : s.place p = .searching k) (hk : k < sIsize)
      (hnote : s.core.noteInodes (s.core.fs.blk (inodeZoneStartSector + k))
        ((List.range 8).map (8 * k + ·)) s.sb = .ok sb) (hfull : 100 ≤ sb.sNinode)
      (hread : Reads sb number) :
      Step sIsize s (.reads p sb.sNinode) ((s.setSb { sb with sIlock := 0 }).take p number)
  /-- The last sector has been read. -/
  | last {s : Sys ι} {p k number} (h : s.place p = .searching k) (hk : sIsize ≤ k)
      (hcached : 0 < s.sb.sNinode) (hread : Reads s.sb number) :
      Step sIsize s (.reads p s.sb.sNinode) ((s.setSb { s.sb with sIlock := 0 }).take p number)
  /-- There was nothing in it either. -/
  | empty {s : Sys ι} {p k} (h : s.place p = .searching k) (hk : sIsize ≤ k)
      (hempty : s.sb.sNinode ≤ 0) :
      Step sIsize s (.fails p .ENOSPC) ((s.setSb { s.sb with sIlock := 0 }).go p .away)
  -- the list may have become empty: nothing asks for it here
  | turn {s : Sys ι} {p number} (h : s.place p = .turning) (hread : Reads s.sb number) :
      Step sIsize s (.reads p s.sb.sNinode) (s.take p number)
  /-- The inode was locked, and may not be any more. -/
  | get {s : Sys ι} {p number} (h : s.place p = .getting number) :
      Step sIsize s .quiet (s.look p number)
  | overflow {s : Sys ι} {p} (h : s.place p = .overflow) :
      Step sIsize s (.fails p .ENFILE) (s.go p .away)
  | found {s : Sys ι} {p i} (h : s.place p = .found i) :
      Step sIsize s (.returns p i)
        ((s.put p (.given i) i (s.refs i) (s.core.mInode i).clean
          { s.core.fs with sb := s.sb.setFmod }).setOut (s.core.number i) True)
  /-- The inode that was read is free. -/
  | loadFree {s : Sys ι} {p i} (h : s.place p = .loading i) (hmode : (s.loaded i).iMode = 0) :
      Step sIsize s (.returns p i)
        ((s.put p (.given i) i (s.refs i) (s.loaded i).clean
          { s.core.fs with sb := s.sb.setFmod }).setOut (s.core.number i) True)
  /-- It is not, and nobody else refers to it. -/
  | loadUsed {s : Sys ι} {p i} (h : s.place p = .loading i) (hmode : (s.loaded i).iMode ≠ 0) :
      Step sIsize s .quiet (s.startPut p i true (s.loaded i))
  /-- `MkNod` and `Creat` fill the inode at once. -/
  | fill {s : Sys ι} {p i ino} (h : s.place p = .given i) (hmode : ino.iMode ≠ 0)
      (hdirty : Dirty ino) (hcount : ino.iCount = s.core.count i)
      (hnumber : ino.iNumber = s.core.number i) :
      Step sIsize s .quiet (s.put p .away i (s.refs i + 1) ino s.core.fs)
  /-- `ITrunc` gives back the blocks, which are not followed here, and `IFree` the inode. -/
  | emptied {s : Sys ι} {p i again buffer fs₀ fs₁ ino fs} (h : s.place p = .emptying i again)
      (htrunc : itrunc buffer fs₀ (s.core.mInode i) = .ok (ino, fs₁))
      (hfree : ifree s.core.fs ino.iNumber = .ok fs) :
      Step sIsize s (.frees ino.iNumber)
        ((s.put p (.updating i again) i (s.refs i) { ino with iMode := 0 } fs).setOut
          ino.iNumber False)
  | updated {s : Sys ι} {p i again time fs} (h : s.place p = .updating i again)
      (hupdate : iupdate s.core.fs (s.core.mInode i) time = .ok fs) :
      Step sIsize s .quiet (s.put p (if again then .turning else .away) i (s.refs i)
        (prele { (s.core.mInode i).prele with
          iFlag := 0
          iNumber := -1
          iCount := (s.core.mInode i).prele.iCount - 1 }) fs)
  /-- `IPut` of a reference that is not the last. -/
  | give {s : Sys ι} {p i} (h : s.place p = .away) (hrefs : s.refs i ≠ 0)
      (hcount : s.core.count i ≠ 1) :
      Step sIsize s .quiet (s.put p .away i (s.refs i - 1)
        (prele { s.core.mInode i with iCount := s.core.count i - 1 }) s.core.fs)
  | giveLast {s : Sys ι} {p i} (h : s.place p = .away) (hrefs : s.refs i ≠ 0)
      (hcount : s.core.count i = 1) :
      Step sIsize s .quiet (s.startPut p i false (s.core.mInode i))
  /-- Another `IGet` of an inode that is in the table. -/
  | share {s : Sys ι} {p i} (h : s.place p = .away) (hrefs : s.refs i ≠ 0) :
      Step sIsize s .quiet (s.put p .away i (s.refs i + 1)
        { s.core.mInode i with
          iCount := s.core.count i + 1
          iFlag := (s.core.mInode i).iFlag ||| ILOCK } s.core.fs)
  /-- Another `IGet` of one that is not. -/
  | «open» {s : Sys ι} {p i number} (h : s.place p = .away) (hn : IsNumber sIsize number)
      (hnone : s.core.isLoaded number = none) (hfree : s.core.getFreeInode = some i) :
      Step sIsize s .quiet
        (s.put p (.opening i) i (s.refs i) (s.core.prepared i number) s.core.fs)
  /-- A name leads to the inode only if it is not free. -/
  | opened {s : Sys ι} {p i} (h : s.place p = .opening i) (hmode : (s.loaded i).iMode ≠ 0) :
      Step sIsize s .quiet (s.put p .away i (s.refs i + 1) (s.loaded i) s.core.fs)
  /-- Whoever has a reference uses the inode: it stays in use, and what has to be written
  is. -/
  | use {s : Sys ι} {p i ino} (h : s.place p = .away) (hrefs : s.refs i ≠ 0)
      (hmode : ino.iMode ≠ 0) (hdirty : Dirty (s.core.mInode i) → Dirty ino)
      (hcount : ino.iCount = s.core.count i) (hnumber : ino.iNumber = s.core.number i) :
      Step sIsize s .quiet (s.put p .away i (s.refs i) ino s.core.fs)
  /-- `IFree` by itself. -/
  | free {s : Sys ι} {number fs} (hn : IsNumber sIsize number)
      (hfree : ifree s.core.fs number = .ok fs) :
      Step sIsize s (.frees number) ({ s with core := ⟨fs, s.core.mInode⟩ }.setOut number False)
  /-- Data is read and written, blocks are handed out and freed. -/
  | elsewhere {s : Sys ι} {fs : FsState}
      (hzone : ∀ k < sIsize, fs.blk (inodeZoneStartSector + k) =
        s.core.fs.blk (inodeZoneStartSector + k))
      (hsb : fs.sb = { s.sb with
        sNfree := fs.sb.sNfree
        sFree := fs.sb.sFree
        sFlock := fs.sb.sFlock
        sFmod := fs.sb.sFmod }) (hnfree : fs.sb.sNfree ≤ 100) :
      Step sIsize s .quiet { s with core := ⟨fs, s.core.mInode⟩ }

/-- A step, after which everybody could look around. -/
def Move (sIsize : ℕ) (s : Sys ι) (e : Event ι) (s' : Sys ι) : Prop :=
  ∃ s₁, Step sIsize s e s₁ ∧ s' = s₁.note

/-! ### What is expected -/

/-- What is expected of a step. -/
def Right (sIsize : ℕ) (s : Sys ι) (e : Event ι) (s' : Sys ι) : Prop :=
  match e with
  | .reads _ depth => 0 < depth ∧ depth ≤ 100
  | .returns _ i =>
    -- it was free and not handed out, and is locked, with nobody else to refer to it
    diskMode s.core.fs (s.core.number i) = 0 ∧ (s'.core.mInode i).iMode = 0 ∧
      s'.core.number i = s.core.number i ∧ ¬s.out (s.core.number i) ∧
      s'.core.locked i = true ∧ s'.core.count i = 1 ∧
      ∀ j ≠ i, s'.core.count j ≠ 0 → s'.core.number j ≠ s'.core.number i
  | .fails p error => error ≠ .NOERROR ∧ ∀ n, IsNumber sIsize n → s'.past p n
  | _ => True

/-- The loop of `IAlloc` comes back to the list only if there is something in it. -/
def Guarded (s : Sys ι) (e : Event ι) : Prop :=
  ∀ p depth, e = .reads p depth → s.place p = .turning → 0 < s.sb.sNinode

end InodeAlloc
end UnixV6pp
