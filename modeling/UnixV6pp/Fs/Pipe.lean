import UnixV6pp.Lib.Runs
import Mathlib.Data.Nat.Notation
import Mathlib.Logic.Function.Basic

/-!
# Pipes

Both ends of a pipe share one inode, whose first `PIPSIZ` bytes are written from front to
back; when all of them have been read, the next read starts the file anew.  The processes that
have its descriptors come by `fork` and `dup`, and whoever reads or writes takes the lock
`ILOCK` of the inode first.

A process runs in the kernel until it goes to sleep.  It may sleep for the lock, for the other
end, and for the disk before each block that `ReadI` and `WriteI` move, so that one step of a
process takes it from one such point to the next.  The bytes of the file are what its blocks
hold, and counts are not negative.

## Main definitions

* `Call`, `Place` — a read or a write, and how far a process is in it.
* `State` — the inode, the read end's `f_offset`, the reference counts and the processes.
* `readP`, `writeP`, `closeF` — the calls, and `step`, one step of any process.
* `unread`, `ReadersStuck`, `WritersStuck` — what is to be delivered and who waits for whom.
-/

namespace UnixV6pp
namespace Pipe

/-- `Inode::PIPSIZ`, `SMALL_FILE_BLOCK` blocks. -/
def PIPSIZ : ℕ := 6 * 512

/-- The two open files of a pipe. -/
inductive End
  | read
  | write
  deriving DecidableEq

/-- A call with what it has still to do. -/
inductive Call
  /-- `ReadP` with its `m_Count`. -/
  | read (mCount : ℕ)
  /-- `WriteP`: the memory of the caller with `m_Base` in it, `count`, and whether `u_error` is
  set. -/
  | write (mem : ℕ → UInt8) (mBase count : ℕ) (uError : Bool)

def Call.side : Call → End
  | .read _ => .read
  | .write .. => .write

/-- Where a process is. -/
inductive Place
  /-- In no call on the pipe. -/
  | user
  /-- At `loop`, on its way to `Plock`. -/
  | plock (c : Call)
  /-- Asleep in `Plock`, on `pInode`. -/
  | wantsLock (c : Call)
  /-- Asleep for the other end: a reader on `pInode + 2`, a writer on `pInode + 1`. -/
  | asleep (c : Call)
  /-- In `ReadI`, with the bytes that it has brought to the caller. -/
  | readI (mOffset mCount : ℕ) (got : List UInt8)
  /-- In `WriteI`; `count` is what is left for the next round of `WriteP`. -/
  | writeI (mem : ℕ → UInt8) (mBase mOffset mCount count : ℕ) (uError : Bool)

/-- The channels that processes sleep on. -/
inductive Chan
  /-- `pInode` -/
  | lock
  /-- `pInode + 1` -/
  | writers
  /-- `pInode + 2` -/
  | readers

namespace Place

/-- The end that the call of the process is on. -/
def side : Place → Option End
  | .user => none
  | .plock c => some c.side
  | .wantsLock c => some c.side
  | .asleep c => some c.side
  | .readI .. => some .read
  | .writeI .. => some .write

/-- The process is where it has the lock. -/
def inside : Place → Bool
  | .readI .. => true
  | .writeI .. => true
  | _ => false

/-- What `WakeUpAll` does to a process. -/
def wake : Chan → Place → Place
  | .lock, .wantsLock c => .plock c
  | .writers, .asleep (.write mem mBase count uError) => .plock (.write mem mBase count uError)
  | .readers, .asleep (.read mCount) => .plock (.read mCount)
  | _, pl => pl

end Place

/-- A pipe and the processes that may use it. -/
structure State (ι : Type) where
  iSize : ℕ
  /-- What the blocks of the file hold. -/
  bytes : ℕ → UInt8
  /-- The bits `ILOCK` and `IWANT` of `i_flag`. -/
  ilock : Bool
  iwant : Bool
  /-- The bits `IREAD` and `IWRITE` of `i_mode`. -/
  iread : Bool
  iwrite : Bool
  /-- 0 once the inode has been given back. -/
  iCount : ℕ
  /-- `f_offset` of the read end; that of the write end is not used. -/
  fOffset : ℕ
  fCount : End → ℕ
  /-- How many descriptors a process has for an end. -/
  fds : ι → End → ℕ
  place : ι → Place
  /-- All bytes that `WriteI` has taken from the writers so far. -/
  accepted : List UInt8
  /-- All bytes that reads have returned so far, in the order in which they had the lock. -/
  delivered : List UInt8

/-- The bytes of `mem` from `a` up to `b`. -/
def slice (mem : ℕ → UInt8) (a b : ℕ) : List UInt8 := (List.range' a (b - a)).map mem

namespace State

variable {ι : Type}

/-- `WakeUpAll` -/
def wakeUpAll (s : State ι) (chan : Chan) : State ι :=
  { s with place := fun p => (s.place p).wake chan }

/-- `Inode::Prele` -/
def prele (s : State ι) : State ι :=
  let s := { s with ilock := false }
  if s.iwant then { s with iwant := false }.wakeUpAll .lock else s

section Calls

variable [DecidableEq ι]

/-- The process `p` goes on from `pl`. -/
def setPlace (s : State ι) (p : ι) (pl : Place) : State ι :=
  { s with place := Function.update s.place p pl }

/-- When all has been read, the file starts anew and the writers may go on. -/
def reset (s : State ι) : State ι :=
  if s.fOffset = 0 then s
  else if s.iwrite then { s with fOffset := 0, iSize := 0, iwrite := false }.wakeUpAll .writers
  else { s with fOffset := 0, iSize := 0 }

/-- `FileManager::ReadP` with the lock, up to the first block. -/
def readP (s : State ι) (p : ι) (mCount : ℕ) : State ι :=
  if s.fOffset = s.iSize then
    let s := s.reset.prele
    if s.iCount < 2 then s.setPlace p .user
    else { s with iread := true }.setPlace p (.asleep (.read mCount))
  else s.setPlace p (.readI s.fOffset mCount [])

/-- `FileManager::WriteP` with the lock, up to the first block. -/
def writeP (s : State ι) (p : ι) (mem : ℕ → UInt8) (mBase count : ℕ) (uError : Bool) : State ι :=
  if count = 0 then s.prele.setPlace p .user
  else if s.iCount < 2 then s.prele.setPlace p .user
  else if s.iSize = PIPSIZ then
    { s with iwrite := true }.prele.setPlace p (.asleep (.write mem mBase count uError))
  else
    let mCount := min count (PIPSIZ - s.iSize)
    s.setPlace p (.writeI mem mBase s.iSize mCount (count - mCount) uError)

/-- `Inode::Plock` and what follows it. -/
def plock (s : State ι) (p : ι) (c : Call) : State ι :=
  if s.ilock then { s with iwant := true }.setPlace p (.wantsLock c)
  else
    let s := { s with ilock := true }
    match c with
    | .read mCount => s.readP p mCount
    | .write mem mBase count uError => s.writeP p mem mBase count uError

/-- A turn of the loop of `ReadI`, or the end of `ReadP` after it. -/
def readI (s : State ι) (p : ι) (mOffset mCount : ℕ) (got : List UInt8) : State ι :=
  if mCount = 0 ∨ s.iSize ≤ mOffset then
    { s with fOffset := mOffset, delivered := s.delivered ++ got }.prele.setPlace p .user
  else
    let nbytes := min (min (512 - mOffset % 512) mCount) (s.iSize - mOffset)
    s.setPlace p (.readI (mOffset + nbytes) (mCount - nbytes)
      (got ++ slice s.bytes mOffset (mOffset + nbytes)))

/-- The readers are called, if any has gone to sleep. -/
def callReaders (s : State ι) : State ι :=
  if s.iread then { s with iread := false }.wakeUpAll .readers else s

/-- A turn of the loop of `WriteI`, or the end of the round of `WriteP` after it. -/
def writeI (s : State ι) (p : ι) (mem : ℕ → UInt8) (mBase mOffset mCount count : ℕ)
    (uError : Bool) : State ι :=
  if uError ∨ mCount = 0 then
    s.prele.callReaders.setPlace p (.plock (.write mem mBase count uError))
  else
    let nbytes := min (512 - mOffset % 512) mCount
    { s with
      bytes := fun o => if mOffset ≤ o ∧ o < mOffset + nbytes then mem (mBase + (o - mOffset))
        else s.bytes o
      iSize := max s.iSize (mOffset + nbytes)
      accepted := s.accepted ++ slice mem mBase (mBase + nbytes) }.setPlace p
        (.writeI mem (mBase + nbytes) (mOffset + nbytes) (mCount - nbytes) count uError)

end Calls

/-- `InodeTable::IPut`; a pipe has no name, so that with the last reference the file goes. -/
def iPut (s : State ι) : State ι :=
  let s := if s.iCount = 1 then
      { { s with ilock := true, iSize := 0, iread := false, iwrite := false }.prele with
        iwant := false }
    else s
  { s with iCount := s.iCount - 1 }.prele

/-- `OpenFileTable::CloseF` for an end of a pipe. -/
def closeF (s : State ι) (e : End) : State ι :=
  let s := ({ s with iread := false, iwrite := false }.wakeUpAll .writers).wakeUpAll .readers
  let s := if s.fCount e ≤ 1 then s.iPut else s
  { s with fCount := Function.update s.fCount e (s.fCount e - 1) }

end State

/-- What a process may do next. -/
inductive Act (ι : Type)
  /-- It calls `read` with a count. -/
  | read (p : ι) (count : ℕ)
  /-- It calls `write` for so many bytes of its memory. -/
  | write (p : ι) (mem : ℕ → UInt8) (count : ℕ)
  | close (p : ι) (e : End)
  | dup (p : ι) (e : End)
  /-- It makes the process `q`, which was not there. -/
  | fork (p q : ι)
  /-- It goes on to the next point where it may sleep. -/
  | go (p : ι)
  /-- `Bmap` has no block for `WriteI`. -/
  | noSpace (p : ι)
  /-- A signal ends its call at `Sleep`. -/
  | signal (p : ι)
  /-- It is called on a channel for another reason: `pInode + 1` is also the address of the next
  inode of the table. -/
  | stray (p : ι)

variable {ι : Type} [DecidableEq ι]

/-- One step of a process, where it may take it. -/
def step (s : State ι) : Act ι → Option (State ι)
  | .read p count =>
    match s.place p with
    | .user => if 0 < s.fds p .read then some (s.setPlace p (.plock (.read count))) else none
    | _ => none
  | .write p mem count =>
    match s.place p with
    | .user =>
      if 0 < s.fds p .write then some (s.setPlace p (.plock (.write mem 0 count false))) else none
    | _ => none
  | .close p e =>
    match s.place p with
    | .user =>
      if 0 < s.fds p e then
        some ({ s with
          fds := Function.update s.fds p (Function.update (s.fds p) e (s.fds p e - 1)) }.closeF e)
      else none
    | _ => none
  | .dup p e =>
    match s.place p with
    | .user =>
      if 0 < s.fds p e then
        some { s with
          fds := Function.update s.fds p (Function.update (s.fds p) e (s.fds p e + 1))
          fCount := Function.update s.fCount e (s.fCount e + 1) }
      else none
    | _ => none
  | .fork p q =>
    match s.place p, s.place q with
    | .user, .user =>
      if s.fds q .read = 0 ∧ s.fds q .write = 0 then
        some { s with
          fds := Function.update s.fds q (s.fds p)
          fCount := fun e => s.fCount e + s.fds p e }
      else none
    | _, _ => none
  | .go p =>
    match s.place p with
    | .plock c => some (s.plock p c)
    | .readI mOffset mCount got => some (s.readI p mOffset mCount got)
    | .writeI mem mBase mOffset mCount count uError =>
      some (s.writeI p mem mBase mOffset mCount count uError)
    | _ => none
  | .noSpace p =>
    match s.place p with
    | .writeI mem mBase mOffset mCount count _ =>
      some (s.setPlace p (.writeI mem mBase mOffset mCount count true))
    | _ => none
  | .signal p =>
    match s.place p with
    | .plock _ => some (s.setPlace p .user)
    | .wantsLock _ => some (s.setPlace p .user)
    | .asleep _ => some (s.setPlace p .user)
    | _ => none
  | .stray p =>
    match s.place p with
    | .wantsLock c => some (s.setPlace p (.plock c))
    | .asleep c => some (s.setPlace p (.plock c))
    | _ => none

/-- A step leads from one state to the other. -/
def Step (s : State ι) (a : Act ι) (s' : State ι) : Prop := step s a = some s'

/-- `FileManager::Pipe` has made the pipe for the process `p`. -/
def start (p : ι) : State ι where
  iSize := 0
  bytes := fun _ => 0
  ilock := false
  iwant := false
  iread := false
  iwrite := false
  iCount := 2
  fOffset := 0
  fCount := fun _ => 1
  fds := fun q _ => if q = p then 1 else 0
  place := fun _ => .user
  accepted := []
  delivered := []

namespace State

variable {ι : Type}

/-- What is in the pipe and no read has taken. -/
def unread (s : State ι) : List UInt8 := slice s.bytes s.fOffset s.iSize

/-- Some process is in a call on the end, and all of them are asleep for the other end. -/
def AllAsleep (s : State ι) (e : End) : Prop :=
  (∃ p, (s.place p).side = some e) ∧
    ∀ p, (s.place p).side = some e → ∃ c, s.place p = .asleep c

/-- Unread data, nobody has the pipe, and every reader is asleep. -/
def ReadersStuck (s : State ι) : Prop :=
  s.ilock = false ∧ s.fOffset < s.iSize ∧ s.AllAsleep .read

/-- An empty pipe, nobody has it, and every writer is asleep. -/
def WritersStuck (s : State ι) : Prop :=
  s.ilock = false ∧ s.fOffset = s.iSize ∧ s.AllAsleep .write

end State

end Pipe
end UnixV6pp
