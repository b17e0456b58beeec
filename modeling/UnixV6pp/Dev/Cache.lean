import UnixV6pp.Dev.Request
import Mathlib.Data.Fintype.Defs

/-!
# The buffer cache

A buffer keeps the block that it was last used for, until it is needed for another one.
`Bread` takes the buffer of its block if there is one, and if `B_DONE` is set there it does
not ask the disk.  `Breada` also asks for a block that may be wanted next, and does not wait
for it.

* `Buffers` — the buffers, the requests, and where each process is in a call.
* `Buffers.getBlk`, `Buffers.brelse`, `Buffers.strategy`, `Buffers.interrupt`.
* `Buffers.Event`, `Buffers.exec` — what processes and the disk do.

The order of the free buffers is left open: any one of them may be taken next.
-/

namespace UnixV6pp

namespace Buf

def B_READ : UInt32 := 0x2
def B_DELWRI : UInt32 := 0x80

end Buf

namespace Cache

open Buf Flags

/-- `b_dev` and `b_blkno`. -/
structure Address where
  bDev : ℤ
  bBlkno : ℤ
  deriving DecidableEq

/-- Who has a buffer: nobody, a process, or the device, for a process. -/
inductive Keeper (π : Type)
  | free
  | process (p : π)
  | device (p : π)
  deriving DecidableEq

/-- A buffer. -/
structure Buffer (π : Type) where
  bFlags : UInt32
  address : Address
  keeper : Keeper π
  /-- The contents come from a transfer that succeeded, or they have been overwritten since. -/
  valid : Bool

/-- Where a process is. -/
inductive Call (ι : Type)
  | none
  /-- In `Breada`, before it reads ahead. -/
  | breada (a : Address) (b : ι) (rablkno : ℤ)
  /-- In `IOWait` of `Bread` or `Breada`. -/
  | ioWait (a : Address) (b : ι)
  /-- In `IOWait` of `Bwrite`. -/
  | bwrite (b : ι)
  deriving DecidableEq

/-- A return from `Bread` or `Breada`: who gets which buffer, what is in it, and whether `GetError`
has set `u_error`. -/
structure Return (ι π : Type) where
  process : π
  address : Address
  buffer : ι
  valid : Bool
  reported : Bool
  deriving DecidableEq

/-- The cache. -/
structure Buffers (ι π : Type) where
  buf : ι → Buffer π
  /-- The requests, the one that the disk works on first. -/
  queue : List ι
  dErrcnt : ℕ
  call : π → Call ι
  /-- Whether `u_error` has become `EIO`. -/
  uError : π → Bool
  /-- The returns so far. -/
  returned : List (Return ι π)

/-- `DeviceManager::NODEV`. -/
def NODEV : ℤ := -1

namespace Buffers

variable {ι π : Type} [DecidableEq ι] [DecidableEq π]

def set (s : Buffers ι π) (b : ι) (x : Buffer π) : Buffers ι π :=
  { s with buf := Function.update s.buf b x }

def setFlags (s : Buffers ι π) (b : ι) (bFlags : UInt32) : Buffers ι π :=
  s.set b { s.buf b with bFlags := bFlags }

def setCall (s : Buffers ι π) (p : π) (call : Call ι) : Buffers ι π :=
  { s with call := Function.update s.call p call }

/-- `BufferManager::InCore`. -/
def inCore [Fintype ι] (s : Buffers ι π) (a : Address) : Bool := decide (∃ b, (s.buf b).address = a)

/-- `BufferManager::GetBlk`, once it does not have to sleep or to write another buffer first, and
the buffer that it returns: that of the block, or a free one. -/
def getBlk [Fintype ι] (s : Buffers ι π) (p : π) (a : Address) (b : ι) : Option (Buffers ι π) :=
  let x := s.buf b
  if flag x.bFlags B_BUSY then none
  else if x.address = a then
    some (s.set b { x with bFlags := x.bFlags ||| B_BUSY, keeper := .process p })
  else if s.inCore a || flag x.bFlags B_DELWRI then none
  else some (s.set b ⟨B_BUSY, a, .process p, false⟩)

/-- `BufferManager::Brelse`.  The number that `SetMinor` returns for a buffer with `B_ERROR` is
not stored anywhere. -/
def brelse (s : Buffers ι π) (b : ι) : Buffers ι π :=
  let x := s.buf b
  s.set b { x with bFlags := x.bFlags &&& ~~~(B_WANTED ||| B_BUSY ||| B_ASYNC), keeper := .free }

/-- `BufferManager::IODone` of a request of the process `p`. -/
def ioDone (s : Buffers ι π) (b : ι) (p : π) : Buffers ι π :=
  let s := s.setFlags b ((s.buf b).bFlags ||| B_DONE)
  let x := s.buf b
  if flag x.bFlags B_ASYNC then s.brelse b
  else s.set b { x with bFlags := x.bFlags &&& ~~~B_WANTED, keeper := .process p }

/-- `ATABlockDevice::Strategy`. -/
def strategy (s : Buffers ι π) (b : ι) (p : π) : Buffers ι π :=
  if Disk.NSECTOR ≤ (s.buf b).address.bBlkno then
    (s.setFlags b ((s.buf b).bFlags ||| B_ERROR)).ioDone b p
  else { s.set b { s.buf b with keeper := .device p } with queue := s.queue ++ [b] }

/-- A request to read the block of a buffer; what was in the buffer is lost. -/
def request (s : Buffers ι π) (b : ι) (p : π) (flags : UInt32) : Buffers ι π :=
  let x := s.buf b
  (s.set b { x with bFlags := x.bFlags ||| flags, valid := false }).strategy b p

/-- `BufferManager::GetError`. -/
def getError (s : Buffers ι π) (b : ι) (p : π) : Buffers ι π :=
  if flag (s.buf b).bFlags B_ERROR then { s with uError := Function.update s.uError p true } else s

/-- The end of `Bread` or `Breada`. -/
def giveBuffer (s : Buffers ι π) (p : π) (a : Address) (b : ι) (reported : Bool) : Buffers ι π :=
  { s.setCall p .none with
    returned := s.returned ++ [⟨p, a, b, (s.buf b).valid, reported⟩] }

/-- `BufferManager::Bwrite`, up to where it waits. -/
def bwrite (s : Buffers ι π) (b : ι) (p : π) : Buffers ι π :=
  let flags := (s.buf b).bFlags
  let s := s.setFlags b (flags &&& ~~~(B_READ ||| B_DONE ||| B_ERROR ||| B_DELWRI))
  let s := s.strategy b p
  if !flag flags B_ASYNC then s.setCall p (.bwrite b)
  else if !flag flags B_DELWRI then s.getError b p
  else s

/-- `ATADriver::ATAHandler`.  There are ten more attempts after an error. -/
def interrupt (s : Buffers ι π) (isError : Bool) : Option (Buffers ι π) :=
  match s.queue with
  | [] => some s
  | b :: queue =>
    if isError && s.dErrcnt + 1 ≤ 10 then some { s with dErrcnt := s.dErrcnt + 1 }
    else
      let x := s.buf b
      match x.keeper with
      | .device p =>
        let x := if isError then { x with bFlags := x.bFlags ||| B_ERROR }
          else { x with valid := x.valid || flag x.bFlags B_READ }
        some ({ s.set b x with dErrcnt := 0, queue := queue }.ioDone b p)
      | _ => none

/-- What processes and the disk do. -/
inductive Event (ι π : Type)
  /-- `Bread`, for which `GetBlk` returns the buffer `b`. -/
  | bread (p : π) (a : Address) (b : ι)
  /-- `Breada` of a block that `InCore` did not find; `GetBlk` returns `b`.  If `InCore` finds the
  block, `Breada` is `Bread`. -/
  | breada (p : π) (a : Address) (b : ι) (rablkno : ℤ)
  /-- `Breada` goes on and reads ahead into `c`. -/
  | readAhead (p : π) (c : ι)
  /-- `Breada` goes on and does not read ahead. -/
  | noReadAhead (p : π)
  /-- The end of `IOWait` for a read. -/
  | ioWait (p : π)
  | brelse (p : π) (b : ι)
  /-- `GetBlk` of a block that is to be overwritten. -/
  | getBlk (p : π) (a : Address) (b : ι)
  /-- All of the buffer is overwritten. -/
  | overwrite (p : π) (b : ι)
  | bdwrite (p : π) (b : ι)
  | bwrite (p : π) (b : ι)
  | bawrite (p : π) (b : ι)
  /-- The end of `IOWait` for a write. -/
  | written (p : π)
  /-- A delayed write, by `GetBlk` or `Bflush`. -/
  | flush (p : π) (b : ι)
  | interrupt (isError : Bool)

/-- The process is not in a call and has the buffer. -/
def Has (s : Buffers ι π) (p : π) (b : ι) : Prop := s.call p = .none ∧ (s.buf b).keeper = .process p

instance (s : Buffers ι π) (p : π) (b : ι) : Decidable (s.Has p b) := instDecidableAnd

def exec [Fintype ι] (s : Buffers ι π) : Event ι π → Option (Buffers ι π)
  | .bread p a b => do
    guard (s.call p = .none)
    let s ← s.getBlk p a b
    if flag (s.buf b).bFlags B_DONE then return s.giveBuffer p a b false
    return (s.request b p B_READ).setCall p (.ioWait a b)
  | .breada p a b rablkno => do
    guard (s.call p = .none)
    let s ← s.getBlk p a b
    if flag (s.buf b).bFlags B_DONE then return s.setCall p (.breada a b rablkno)
    return (s.request b p B_READ).setCall p (.breada a b rablkno)
  | .readAhead p c =>
    match s.call p with
    | .breada a b rablkno => do
      guard (rablkno ≠ 0)
      let s ← s.getBlk p ⟨a.bDev, rablkno⟩ c
      if flag (s.buf c).bFlags B_DONE then return (s.brelse c).setCall p (.ioWait a b)
      return (s.request c p (B_READ ||| B_ASYNC)).setCall p (.ioWait a b)
    | _ => none
  | .noReadAhead p =>
    match s.call p with
    | .breada a b rablkno => do
      guard (rablkno = 0 ∨ s.inCore ⟨a.bDev, rablkno⟩)
      return s.setCall p (.ioWait a b)
    | _ => none
  | .ioWait p =>
    match s.call p with
    | .ioWait a b => do
      guard (flag (s.buf b).bFlags B_DONE)
      return (s.getError b p).giveBuffer p a b (flag (s.buf b).bFlags B_ERROR)
    | _ => none
  | .brelse p b => do
    guard (s.Has p b)
    return s.brelse b
  | .getBlk p a b => do
    guard (s.call p = .none)
    s.getBlk p a b
  | .overwrite p b => do
    guard (s.Has p b)
    return s.set b { s.buf b with valid := true }
  | .bdwrite p b => do
    guard (s.Has p b)
    return (s.setFlags b ((s.buf b).bFlags ||| (B_DELWRI ||| B_DONE))).brelse b
  | .bwrite p b => do
    guard (s.Has p b)
    return s.bwrite b p
  | .bawrite p b => do
    guard (s.Has p b)
    return (s.setFlags b ((s.buf b).bFlags ||| B_ASYNC)).bwrite b p
  | .written p =>
    match s.call p with
    | .bwrite b => do
      guard (flag (s.buf b).bFlags B_DONE)
      return ((s.getError b p).brelse b).setCall p .none
    | _ => none
  | .flush p b => do
    guard (¬flag (s.buf b).bFlags B_BUSY ∧ flag (s.buf b).bFlags B_DELWRI)
    return (s.setFlags b ((s.buf b).bFlags ||| (B_ASYNC ||| B_BUSY))).bwrite b p
  | .interrupt isError => s.interrupt isError

def Step [Fintype ι] (s : Buffers ι π) (e : Event ι π) (s' : Buffers ι π) : Prop := s.exec e = some s'

/-- The cache at first. -/
def boot : Buffers ι π where
  buf := fun _ => ⟨0, ⟨NODEV, 0⟩, .free, false⟩
  queue := []
  dErrcnt := 0
  call := fun _ => .none
  uError := fun _ => false
  returned := []

end Buffers
end Cache
end UnixV6pp
