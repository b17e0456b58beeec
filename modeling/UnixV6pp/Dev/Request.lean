import UnixV6pp.Lib.Flags
import Mathlib.Logic.Function.Basic
import Mathlib.Data.Nat.Notation

/-!
# Disk requests

A buffer with work to do is queued for the disk: the queue is a list through the
same `av_forw` that otherwise links the free buffers.  A process appends at the
tail, the interrupt handler takes away the head, and the disk works on one
request at a time.

* `Disk` — the buffers with their links, and the table of the device.
* `Disk.strategy`, `Disk.enqueue` — `ATABlockDevice::Strategy`, in two parts.
* `Disk.ataHandler` — the interrupt handler.
* `Disk.Step` — what processes and interrupts do.
-/

namespace UnixV6pp

/-- What a pointer to a `Buf` may point to. -/
inductive Place (ι : Type)
  | bFreeList
  | buf (b : ι)
  deriving DecidableEq

namespace Buf

def B_DONE : UInt32 := 0x4
def B_ERROR : UInt32 := 0x8
def B_BUSY : UInt32 := 0x10
def B_WANTED : UInt32 := 0x20
def B_ASYNC : UInt32 := 0x40

end Buf

/-- Whose a buffer is. -/
inductive Holder
  | free
  | process
  /-- A process is in `Strategy` and has cleared `av_forw`. -/
  | entering
  | queue
  deriving DecidableEq

/-- The buffers and the table `g_Atab`. -/
structure Disk (ι : Type) where
  bFlags : ι → UInt32
  avForw : Place ι → Option (Place ι)
  avBack : Place ι → Option (Place ι)
  dActive : ℕ
  dErrcnt : ℕ
  dActf : Option (Place ι)
  dActl : Option (Place ι)
  holder : ι → Holder
  /-- What has been queued so far, in this order. -/
  queued : List ι
  /-- What `DevStart` has been called with. -/
  started : List ι
  /-- The results of the interrupts that the handler did not ignore: whether there was an error. -/
  results : List Bool
  /-- What `IODone` has been called with by the handler, and whether `B_ERROR` was set. -/
  completed : List (ι × Bool)

namespace Disk

open Buf

variable {ι : Type} [DecidableEq ι]

/-- The buffer a pointer points to; `none` stands for a pointer that must not be followed. -/
def target : Option (Place ι) → Option ι
  | some (.buf b) => some b
  | _ => none

def setForw (s : Disk ι) (p : Place ι) (q : Option (Place ι)) : Disk ι :=
  { s with avForw := Function.update s.avForw p q }

def setBack (s : Disk ι) (p : Place ι) (q : Option (Place ι)) : Disk ι :=
  { s with avBack := Function.update s.avBack p q }

def setFlags (s : Disk ι) (b : ι) (flags : UInt32) : Disk ι :=
  { s with bFlags := Function.update s.bFlags b flags }

def setHolder (s : Disk ι) (b : ι) (h : Holder) : Disk ι :=
  { s with holder := Function.update s.holder b h }

/-- `BufferManager::NotAvail`. -/
def notAvail (s : Disk ι) (b : ι) : Option (Disk ι) := do
  let back ← s.avBack (.buf b)
  let s := s.setForw back (s.avForw (.buf b))
  let forw ← s.avForw (.buf b)
  let s := s.setBack forw (s.avBack (.buf b))
  some ((s.setFlags b (s.bFlags b ||| B_BUSY)).setHolder b .process)

/-- `BufferManager::Brelse`; waking up those who wait changes nothing here. -/
def brelse (s : Disk ι) (b : ι) : Option (Disk ι) := do
  let s := s.setFlags b (s.bFlags b &&& ~~~(B_WANTED ||| B_BUSY ||| B_ASYNC))
  let last ← s.avBack .bFreeList
  let s := s.setForw last (some (.buf b))
  let s := s.setBack (.buf b) (s.avBack .bFreeList)
  let s := s.setForw (.buf b) (some .bFreeList)
  let s := s.setBack .bFreeList (some (.buf b))
  some (s.setHolder b .free)

/-- `BufferManager::IODone`. -/
def ioDone (s : Disk ι) (b : ι) : Option (Disk ι) :=
  let s := s.setFlags b (s.bFlags b ||| B_DONE)
  if s.bFlags b &&& B_ASYNC ≠ 0 then s.brelse b
  else some ((s.setFlags b (s.bFlags b &&& ~~~B_WANTED)).setHolder b .process)

/-- `ATADriver::DevStart`, which tells the controller what to do. -/
def devStart (s : Disk ι) (b : ι) : Disk ι :=
  { s with started := s.started ++ [b] }

/-- `ATABlockDevice::Start`. -/
def start (s : Disk ι) : Option (Disk ι) :=
  match s.dActf with
  | none => some s
  | some p => (target (some p)).map fun b => { s with dActive := s.dActive + 1 }.devStart b

/-- `ATABlockDevice::NSECTOR`. -/
def NSECTOR : ℤ := 0x7FFFFFFF

/-- `ATABlockDevice::Strategy` up to where interrupts are disabled. -/
def strategy (s : Disk ι) (b : ι) (blkno : ℤ) : Option (Disk ι) :=
  if NSECTOR ≤ blkno then (s.setFlags b (s.bFlags b ||| B_ERROR)).ioDone b
  else some ((s.setForw (.buf b) none).setHolder b .entering)

/-- The new request is the first one, or it comes after the last one. -/
def linkRequest (s : Disk ι) (b : ι) : Option (Disk ι) :=
  if s.dActf = none then some { s with dActf := some (.buf b) }
  else s.dActl.map fun last => s.setForw last (some (.buf b))

/-- The part of `ATABlockDevice::Strategy` during which interrupts are disabled. -/
def enqueue (s : Disk ι) (b : ι) : Option (Disk ι) := do
  let s ← s.linkRequest b
  let s := { s with dActl := some (.buf b), queued := s.queued ++ [b] }.setHolder b .queue
  if s.dActive = 0 then s.start else some s

/-- The end of `ATADriver::ATAHandler`: the request is done, and the next one is started. -/
def finish (s : Disk ι) (b : ι) : Option (Disk ι) := do
  let s := { s with
    dErrcnt := 0
    dActf := s.avForw (.buf b)
    completed := s.completed ++ [(b, s.bFlags b &&& B_ERROR != 0)] }
  let s ← (s.setHolder b .process).ioDone b
  s.start

/-- `ATADriver::ATAHandler`, for an interrupt with or without an error. -/
def ataHandler (s : Disk ι) (isError : Bool) : Option (Disk ι) :=
  if s.dActive = 0 then some s
  else do
    let b ← target s.dActf
    let s := { s with dActive := 0, results := s.results ++ [isError] }
    if isError then do
      let s := { s with dErrcnt := s.dErrcnt + 1 }
      if s.dErrcnt ≤ 10 then s.start
      else (s.setFlags b (s.bFlags b ||| B_ERROR)).finish b
    else s.finish b

/-- What happens to buffers, at the points where an interrupt can come. -/
inductive Event (ι : Type)
  /-- A process takes a free buffer. -/
  | notAvail (b : ι)
  /-- A process gives a buffer back. -/
  | brelse (b : ι)
  /-- A process calls `Strategy`, with these flags. -/
  | strategy (b : ι) (flags : UInt32) (blkno : ℤ)
  /-- It goes on there. -/
  | enqueue (b : ι)
  | interrupt (isError : Bool)

def exec (s : Disk ι) : Event ι → Option (Disk ι)
  | .notAvail b => s.notAvail b
  | .brelse b => s.brelse b
  | .strategy b flags blkno => (s.setFlags b flags).strategy b blkno
  | .enqueue b => s.enqueue b
  | .interrupt isError => s.ataHandler isError

/-- A process uses only the buffers that it has, and asks for something that is not done yet. -/
def Proper (s : Disk ι) : Event ι → Prop
  | .notAvail b => s.holder b = .free
  | .brelse b => s.holder b = .process
  | .strategy b flags _ =>
    s.holder b = .process ∧ flags &&& B_DONE = 0 ∧ flags &&& B_ERROR = 0
  | .enqueue b => s.holder b = .entering
  | .interrupt _ => True

def Step (s : Disk ι) (e : Event ι) (s' : Disk ι) : Prop := s.exec e = some s'

/-- The tables at first: the free list is empty, and every buffer is still to be given to it. -/
def boot : Disk ι where
  bFlags := fun _ => B_BUSY
  avForw := fun p => if p = .bFreeList then some .bFreeList else none
  avBack := fun p => if p = .bFreeList then some .bFreeList else none
  dActive := 0
  dErrcnt := 0
  dActf := none
  dActl := none
  holder := fun _ => .process
  queued := []
  started := []
  results := []
  completed := []

end Disk
end UnixV6pp
