import UnixV6pp.Lib.Runs
import UnixV6pp.Lib.Tally
import UnixV6pp.Mm.LiveRanges
import UnixV6pp.Mm.MemoryOwners
import UnixV6pp.Proc.ProcessTable

/-!
# Images in memory and on the swap area

The image of a process, its user area with data and stack, is a range of pages or, when it is
swapped out, a range of blocks of the swap area.  The text is kept apart from it, for all processes
that execute the same file, and has pages as long as one of them is in memory, and blocks as long
as there is one.  The kernel takes and gives back these ranges in `Fork`, `Exec`, `Expand`, `Exit`,
`Wait` and `Sched`, all of which wait for the disk in between.

* `Image`, `Text`, `System` — the tables, and the maps of the memory and of the swap area.
* `System.exec` — what a process or `Sched` does between two points where it waits.
* `System.memOwn`, `System.swapOwn` — who has which pages, and which blocks.
* `Kept` — **the invariant.**

`Sched` never gets to its call of `XSwap` (`Swapping.sched_of_full`), so that only `Expand` and
`NewProc` swap out.
-/

namespace UnixV6pp
namespace Images

open Allocator Proc Tally

/-- `NTEXT`. -/
abbrev NTEXT : ℕ := 50

/-- An index into `text[]`. -/
abbrev TextSlot := Fin NTEXT

/-- `p_stat` and `p_flag`, as far as it matters here, with the point where the process waits and
what its local variables hold there. -/
inductive Stage
  /-- `SNULL`. -/
  | null
  /-- `SLOAD`, and at none of the points below. -/
  | loaded
  /-- `XSwap`, called by `Expand`, writes the image, which has still this size in memory. -/
  | swapping (blkno size : UInt32)
  /-- `NewProc` waits for `XSwap` of the child. -/
  | forking (child : Proc.Slot)
  /-- The child, whose image is being written from that of its parent. -/
  | born (blkno : UInt32)
  /-- `XFree` is in `IPut`. -/
  | iPut
  /-- `Exit` writes the user area. -/
  | exiting (blkno : UInt32)
  /-- `Wait` reads the user area of a child. -/
  | waiting (child : Proc.Slot)
  /-- Without `SLOAD`. -/
  | swapped
  /-- `Sched` reads the text of the process. -/
  | readingText (desAddress : UInt32)
  /-- `Sched` reads the image. -/
  | readingImage (desAddress : UInt32)
  /-- `SZOMB`. -/
  | zombie
  deriving DecidableEq

/-- An entry of `process[]`. -/
structure Image where
  pSize : UInt32
  /-- An address, or the first block on the swap area. -/
  pAddr : UInt32
  pTextp : Option TextSlot
  stage : Stage
  deriving DecidableEq

/-- An entry of `text[]`; the file is the one that `x_iptr` points to. -/
structure Text (ν : Type) where
  xDaddr : UInt32
  xCaddr : UInt32
  xSize : UInt32
  xIptr : Option ν
  xCount : ℕ
  xCcount : ℕ

structure System (ν : Type) where
  memory : MapState
  swapper : MapState
  process : Proc.Slot → Image
  text : TextSlot → Text ν

namespace System

variable {ν : Type} (s : System ν)

def setProcess (i : Proc.Slot) (x : Image) : System ν :=
  { s with process := Function.update s.process i x }

def setStage (i : Proc.Slot) (stage : Stage) : System ν :=
  s.setProcess i { s.process i with stage := stage }

def setText (t : TextSlot) (x : Text ν) : System ν := { s with text := Function.update s.text t x }

/-- `Text::XccDec`. -/
def xccDec (t : TextSlot) : System ν :=
  let x := s.text t
  if x.xCcount = 0 then s
  else
    let s := s.setText t { x with xCcount := x.xCcount - 1 }
    if x.xCcount - 1 = 0 then { s with memory := s.memory.freeMemory x.xSize x.xCaddr } else s

/-- `XccDec` for the text of a process, if it has one. -/
def xccDecOf : Option TextSlot → System ν
  | none => s
  | some t => s.xccDec t

/-- `ProcessManager::XSwap`, up to where it waits; without blocks the kernel stops. -/
def xSwap (i : Proc.Slot) (stage : UInt32 → Stage) : Option (System ν) :=
  let r := s.swapper.allocSwap (s.process i).pSize
  if r.1 = 0 then none
  else some ({ s with swapper := r.2 }.xccDecOf (s.process i).pTextp |>.setStage i (stage r.1))

/-- `Process::Expand`; if there is no memory, up to where it waits. -/
def expand (i : Proc.Slot) (newSize : UInt32) : Option (System ν) :=
  let x := s.process i
  if newSize ≤ x.pSize then
    let memory := s.memory.freeMemory (x.pSize - newSize) (x.pAddr + newSize)
    some ({ s with memory := memory }.setProcess i { x with pSize := newSize })
  else
    let r := s.memory.allocMemory newSize
    if r.1 = 0 then
      ({ s with memory := r.2 }.setProcess i { x with pSize := newSize }).xSwap i
        (.swapping · x.pSize)
    else
      some ({ s with memory := r.2.freeMemory x.pSize x.pAddr }.setProcess i
        { x with pSize := newSize, pAddr := r.1 })

/-- The first entry that is free. -/
def child : Option Proc.Slot := (List.finRange NPROC).find? fun i => (s.process i).stage = .null

/-- One process more has the text. -/
def share (t : TextSlot) : System ν :=
  let x := s.text t
  s.setText t { x with xCount := x.xCount + 1, xCcount := x.xCcount + 1 }

/-- The child of a process has its text too. -/
def shareOf : Option TextSlot → System ν
  | none => s
  | some t => s.share t

/-- `ProcessManager::NewProc`; if there is no memory, up to where it waits. -/
def newProc (i c : Proc.Slot) : Option (System ν) :=
  let x := s.process i
  let s := s.shareOf x.pTextp
  let r := s.memory.allocMemory x.pSize
  let s := { s with memory := r.2 }
  if r.1 = 0 then do
    let s ← (s.setProcess c { x with stage := .loaded }).xSwap c .born
    return s.setStage i (.forking c)
  else some (s.setProcess c { x with stage := .loaded, pAddr := r.1 })

/-- `Text::XFree` of a process, up to where `IPut` may wait. -/
def xFree (i : Proc.Slot) (t : TextSlot) : System ν :=
  let s := s.xccDec t
  let x := s.text t
  let s := s.setText t { x with xCount := x.xCount - 1 }
  if x.xCount - 1 = 0 then
    { s with swapper := s.swapper.freeSwap x.xSize x.xDaddr }.setStage i .iPut
  else s.setProcess i { s.process i with pTextp := none }

/-- The search of `Exec` for an entry that has the file, or else for one that is free. -/
def findText [DecidableEq ν] (file : ν) : Option TextSlot × Option TextSlot :=
  ((List.finRange NTEXT).find? fun t => (s.text t).xIptr = some file,
    (List.finRange NTEXT).find? fun t => (s.text t).xIptr = none)

/-- What a process, or `Sched`, does. -/
inductive Action (ν : Type)
  | fork (i : Proc.Slot)
  /-- The end of `XSwap` for a child. -/
  | forked (i : Proc.Slot)
  | expand (i : Proc.Slot) (newSize : UInt32)
  /-- The end of `XSwap` for `Expand`. -/
  | swappedOut (i : Proc.Slot)
  | xFree (i : Proc.Slot)
  /-- The end of `IPut` in `XFree`. -/
  | iPut (i : Proc.Slot)
  /-- `Exec` finds an entry for the text of a file. -/
  | execText (i : Proc.Slot) (file : ν) (textSize : UInt32)
  | exit (i : Proc.Slot)
  /-- The end of `Bwrite` in `Exit`. -/
  | exited (i : Proc.Slot)
  | wait (i j : Proc.Slot)
  /-- The end of `Bread` in `Wait`. -/
  | waited (i : Proc.Slot)
  /-- `Sched` begins to swap a process in. -/
  | swapIn (i : Proc.Slot)
  | textRead (i : Proc.Slot)
  | imageRead (i : Proc.Slot)

/-- `BufferManager::BUFFER_SIZE`. -/
def BUFFER_SIZE : UInt32 := 512

def Reading (x : Image) : Bool :=
  match x.stage with
  | .readingText _ | .readingImage _ => true
  | _ => false

/-- A process that runs, and is not the first one, which has its image elsewhere. -/
def Runs (i : Proc.Slot) : Prop := i ≠ 0 ∧ (s.process i).stage = .loaded

instance (i : Proc.Slot) : Decidable (s.Runs i) := instDecidableAnd

def exec [DecidableEq ν] : Action ν → Option (System ν)
  | .fork i => do
    guard ((s.process i).stage = .loaded)
    let c ← s.child
    s.newProc i c
  | .forked i =>
    match (s.process i).stage with
    | .forking c =>
      match (s.process c).stage with
      | .born blkno =>
        some ((s.setProcess c { s.process c with pAddr := blkno, stage := .swapped }).setStage i
          .loaded)
      | _ => none
    | _ => none
  | .expand i newSize => do
    guard (s.Runs i)
    s.expand i newSize
  | .swappedOut i =>
    match (s.process i).stage with
    | .swapping blkno size =>
      some ({ s with memory := s.memory.freeMemory size (s.process i).pAddr }.setProcess i
        { s.process i with pAddr := blkno, stage := .swapped })
    | _ => none
  | .xFree i => do
    guard (s.Runs i)
    let t ← (s.process i).pTextp
    return s.xFree i t
  | .iPut i => do
    guard ((s.process i).stage = .iPut)
    let t ← (s.process i).pTextp
    return (s.setText t { s.text t with xIptr := none }).setProcess i
      { s.process i with pTextp := none, stage := .loaded }
  | .execText i file textSize => do
    guard (s.Runs i ∧ (s.process i).pTextp = none)
    match s.findText file with
    | (some t, _) => return (s.share t).setProcess i { s.process i with pTextp := some t }
    | (none, some t) =>
      let r := s.memory.allocMemory textSize
      let r' := s.swapper.allocSwap textSize
      return ({ s with memory := r.2, swapper := r'.2 }.setText t
        ⟨r'.1, r.1, textSize, some file, 1, 1⟩).setProcess i { s.process i with pTextp := some t }
    | (none, none) => none
  | .exit i => do
    guard (s.Runs i ∧ (s.process i).pTextp = none)
    let r := s.swapper.allocSwap BUFFER_SIZE
    guard (r.1 ≠ 0)
    return { s with swapper := r.2 }.setStage i (.exiting r.1)
  | .exited i =>
    match (s.process i).stage with
    | .exiting blkno =>
      let x := s.process i
      some ({ s with memory := s.memory.freeMemory x.pSize x.pAddr }.setProcess i
        { x with pAddr := blkno, stage := .zombie })
    | _ => none
  | .wait i j => do
    guard (s.Runs i ∧ (s.process j).stage = .zombie)
    return (s.setStage j .null).setStage i (.waiting j)
  | .waited i =>
    match (s.process i).stage with
    | .waiting j =>
      some ({ s with swapper := s.swapper.freeSwap BUFFER_SIZE (s.process j).pAddr }.setStage i
        .loaded)
    | _ => none
  | .swapIn i => do
    guard ((s.process i).stage = .swapped ∧ ∀ j, Reading (s.process j) = false)
    let x := s.process i
    match x.pTextp with
    | some t =>
      if (s.text t).xCcount = 0 then do
        let r := s.memory.allocMemory (x.pSize + (s.text t).xSize)
        guard (r.1 ≠ 0)
        return { s with memory := r.2 }.setStage i (.readingText r.1)
      else do
        let r := s.memory.allocMemory x.pSize
        guard (r.1 ≠ 0)
        return ({ s with memory := r.2 }.setText t
          { s.text t with xCcount := (s.text t).xCcount + 1 }).setStage i (.readingImage r.1)
    | none => do
      let r := s.memory.allocMemory x.pSize
      guard (r.1 ≠ 0)
      return { s with memory := r.2 }.setStage i (.readingImage r.1)
  | .textRead i =>
    match (s.process i).stage with
    | .readingText desAddress => do
      let t ← (s.process i).pTextp
      let x := s.text t
      return (s.setText t { x with xCaddr := desAddress, xCcount := x.xCcount + 1 }).setStage i
        (.readingImage (desAddress + x.xSize))
    | _ => none
  | .imageRead i =>
    match (s.process i).stage with
    | .readingImage desAddress =>
      let x := s.process i
      some ({ s with swapper := s.swapper.freeSwap x.pSize x.pAddr }.setProcess i
        { x with pAddr := desAddress, stage := .loaded })
    | _ => none

def Step [DecidableEq ν] (s : System ν) (a : Action ν) (s' : System ν) : Prop := s.exec a = some s'

end System

/-! ### Who has what -/

/-- The pages of a text. -/
def Text.pages {ν : Type} (x : Text ν) : UInt32 × UInt32 :=
  if x.xCcount = 0 then (0, 0) else (x.xCaddr / PAGE_SIZE, Allocator.pages x.xSize)

/-- The blocks of a text. -/
def Text.blocks {ν : Type} (x : Text ν) : UInt32 × UInt32 :=
  if x.xCount = 0 then (0, 0) else (x.xDaddr, Allocator.blocks x.xSize)

namespace Image

variable (x : Image)

/-- The pages of an image, with those for its text as long as that is being read. -/
def pages (textSize : UInt32) : UInt32 × UInt32 :=
  match x.stage with
  | .loaded | .forking _ | .iPut | .exiting _ | .waiting _ =>
    (x.pAddr / PAGE_SIZE, Allocator.pages x.pSize)
  | .swapping _ size => (x.pAddr / PAGE_SIZE, Allocator.pages size)
  | .readingText desAddress => (desAddress / PAGE_SIZE, Allocator.pages (x.pSize + textSize))
  | .readingImage desAddress => (desAddress / PAGE_SIZE, Allocator.pages x.pSize)
  | .null | .born _ | .swapped | .zombie => (0, 0)

/-- The blocks of an image; who is in `Wait` has the block of the child. -/
def blocks (process : Proc.Slot → Image) : UInt32 × UInt32 :=
  match x.stage with
  | .swapped | .readingText _ | .readingImage _ => (x.pAddr, Allocator.blocks x.pSize)
  | .swapping blkno _ | .born blkno => (blkno, Allocator.blocks x.pSize)
  | .exiting blkno => (blkno, Allocator.blocks System.BUFFER_SIZE)
  | .zombie => (x.pAddr, Allocator.blocks System.BUFFER_SIZE)
  | .waiting j => ((process j).pAddr, Allocator.blocks System.BUFFER_SIZE)
  | .null | .loaded | .forking _ | .iPut => (0, 0)

/-- The text that a process has. -/
def user : Option TextSlot :=
  match x.stage with
  | .null | .zombie | .iPut => none
  | _ => x.pTextp

/-- The text that it needs in memory. -/
def inMemory : Option TextSlot :=
  match x.stage with
  | .loaded | .forking _ | .exiting _ | .waiting _ | .readingImage _ => x.pTextp
  | _ => none

/-- An image, or a text, is not larger than the address space. -/
def Sized (size : UInt32) : Prop := 0 < size.toNat ∧ size.toNat ≤ 0x800000

/-- At the start of a page. -/
def Aligned (address : UInt32) : Prop := address.toNat % 4096 = 0

/-- What is true of an image by itself. -/
def Ok : Prop :=
  match x.stage with
  | .null | .zombie => True
  | .loaded | .forking _ | .waiting _ | .iPut => Sized x.pSize ∧ Aligned x.pAddr
  | .swapping _ size => Sized x.pSize ∧ Sized size ∧ Aligned x.pAddr
  | .born _ | .swapped => Sized x.pSize
  | .exiting _ => Sized x.pSize ∧ Aligned x.pAddr ∧ x.pTextp = none
  | .readingText desAddress | .readingImage desAddress => Sized x.pSize ∧ Aligned desAddress

end Image

namespace System

variable {ν : Type} (s : System ν)

def textSize (i : Proc.Slot) : UInt32 :=
  match (s.process i).pTextp with
  | some t => (s.text t).xSize
  | none => 0

/-- The pages of processes and of texts; the first process has its image elsewhere. -/
def memOwn : Proc.Slot ⊕ TextSlot → UInt32 × UInt32
  | .inl i => if i = 0 then (0, 0) else (s.process i).pages (s.textSize i)
  | .inr t => (s.text t).pages

/-- Their blocks. -/
def swapOwn : Proc.Slot ⊕ TextSlot → UInt32 × UInt32
  | .inl i => (s.process i).blocks s.process
  | .inr t => (s.text t).blocks

end System

open Image

/-- What is true of the tables. -/
structure Tables {ν : Type} (process : Proc.Slot → Image) (text : TextSlot → Text ν) : Prop where
  image : ∀ i, (process i).Ok
  sized : ∀ t, (text t).xCount ≠ 0 →
    (text t).xIptr ≠ none ∧ Sized (text t).xSize ∧ Aligned (text t).xSize
  count : ∀ t, ((text t).xCount : ℤ) = tally (fun i => (process i).user) t
  ccount : ∀ t, ((text t).xCcount : ℤ) = tally (fun i => (process i).inMemory) t
  /-- The entry of a child that `Wait` has found is not used again yet. -/
  waiting : ∀ i j, (process i).stage = .waiting j → (process j).stage = .null
  /-- `Sched` swaps in one process at a time. -/
  reading : ∀ i j, System.Reading (process i) = true → System.Reading (process j) = true → i = j
  readingText : ∀ i d, (process i).stage = .readingText d →
    ∃ t, (process i).pTextp = some t ∧ (text t).xCcount = 0
  iPut : ∀ i, (process i).stage = .iPut →
    ∃ t, (process i).pTextp = some t ∧ (text t).xCount = 0 ∧ (text t).xIptr ≠ none
  once : ∀ i j t, (process i).stage = .iPut → (process j).stage = .iPut →
    (process i).pTextp = some t → (process j).pTextp = some t → i = j
  system : (process 0).pTextp = none ∧
    ((process 0).stage = .loaded ∨ ∃ c, (process 0).stage = .forking c)

/-- **The invariant.** -/
structure Kept {ν : Type} (map₀ : List MapNode) (s : System ν) : Prop where
  memory : Owned map₀ s.memory s.memOwn
  swapper : Owned swapMap s.swapper s.swapOwn
  tables : Tables s.process s.text

end Images
end UnixV6pp
