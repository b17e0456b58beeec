import UnixV6pp.Lib.Links
import UnixV6pp.Lib.Runs
import UnixV6pp.Lib.Words
import Mathlib.Data.List.Basic

/-!
# `malloc` and `free`

The C library keeps a list of block headers in the heap itself, in the order of the addresses;
the first header stands for no block.  `malloc` takes the first gap between two blocks, or makes
room behind the last one.  Addresses and sizes are the values of 32-bit words.

## Main definitions

* `State` — the memory, the library's variables, the kernel's break, and the live blocks.
* `State.sbrk`, `State.malloc`, `State.free` — the functions of the library.
* `Event`, `Step` — calls, and stores of the program to its own blocks.
-/

namespace UnixV6pp
namespace Heap

open Words Links

/-- What an unsigned word keeps. -/
def uint32 (x : ℤ) : ℤ := x % 2 ^ 32

theorem uint32_of_bounds {x : ℤ} (h₁ : 0 ≤ x) (h₂ : x < 2 ^ 32) : uint32 x = x :=
  Int.emod_eq_of_lt h₁ h₂

def PAGE_SIZE : ℤ := 12288

/-- `sizeof(struct flist)`. -/
def HEADER : ℤ := 8

/-- There are no more headers than places for them. -/
def WALK : ℕ := 2 ^ 29

structure State where
  /-- The word at an address. -/
  mem : ℤ → ℤ
  mallocBegin : ℤ
  mallocEnd : ℤ
  mallocHead : ℤ
  fakeedata : ℤ
  /-- The end of the data segment, which is the kernel's. -/
  brk : ℤ
  /-- The blocks in use, with the sizes asked for. -/
  live : List (ℤ × ℤ)

/-- `iter->size`. -/
abbrev size (mem : ℤ → ℤ) (iter : ℤ) : ℤ := mem iter

/-- `iter->nlink`. -/
abbrev nlink (mem : ℤ → ℤ) (iter : ℤ) : ℤ := mem (iter + 4)

/-- The header behind this one. -/
def next (mem : ℤ → ℤ) (iter : ℤ) : Option ℤ :=
  if nlink mem iter = 0 then none else some (nlink mem iter)

def setSize (mem : ℤ → ℤ) (iter v : ℤ) : ℤ → ℤ := Function.update mem iter v

def setNlink (mem : ℤ → ℤ) (iter v : ℤ) : ℤ → ℤ := Function.update mem (iter + 4) v

/-- A request with its header, rounded up. -/
def roundUp (size : ℤ) : ℤ := uint32 (uint32 (size + HEADER) + 7) / 8 * 8

/-- The loop of `malloc`: the header before the first gap that is large enough, or the last
header. -/
def place (mem : ℤ → ℤ) (size : ℤ) : ℕ → ℤ → Option (Bool × ℤ)
  | 0, _ => none
  | n + 1, iter =>
    if nlink mem iter ≠ 0 then
      if uint32 (nlink mem iter - mem iter - iter) ≥ size then some (true, iter)
      else place mem size n (nlink mem iter)
    else some (false, iter)

/-- The loop of `free`: the header before this one, if it is in the list. -/
def search (mem : ℤ → ℤ) (realAddr : ℤ) : ℕ → ℤ → ℤ → Option (Option ℤ)
  | 0, _, _ => none
  | n + 1, last, iter =>
    if iter ≠ 0 then
      if iter = realAddr then some (some last)
      else search mem realAddr n iter (nlink mem iter)
    else some none

namespace State

variable (s : State)

/-- `brk`, which the kernel grants or not; 0 only asks. -/
def brkCall (newEnd : ℤ) (grant : Bool) : State :=
  if newEnd ≠ 0 ∧ grant then { s with brk := newEnd } else s

/-- `sbrk`; it returns the new `fakeedata`, whatever `brk` did. -/
def sbrk (increment : ℤ) (grant : Bool) : State :=
  let edata := if s.fakeedata = 0 then (if int32 s.brk ≥ 0 then s.brk else uint32 (-1))
    else s.fakeedata
  let newedata := uint32 (edata + increment - 1)
  { s.brkCall (uint32 ((newedata / 2 ^ 12 + 1) * 2 ^ 12)) grant with
    fakeedata := uint32 (newedata + 1) }

/-- The first call of `malloc` makes the first header. -/
def begin (grant₀ grant₁ : Bool) : State :=
  if s.mallocBegin = 0 then
    let s₀ := s.sbrk 0 grant₀
    let s₁ := s₀.sbrk PAGE_SIZE grant₁
    { s₁ with
      mallocBegin := s₀.fakeedata
      mallocEnd := s₁.fakeedata
      mallocHead := s₀.fakeedata
      mem := setNlink (setSize s₁.mem s₀.fakeedata HEADER) s₀.fakeedata 0 }
  else s

/-- A header in the gap behind `iter`. -/
def split (iter size : ℤ) : ℤ × State :=
  let temp := uint32 (iter + s.mem iter)
  (uint32 (temp + HEADER), { s with
    mem := setSize (setNlink (setNlink s.mem temp (nlink s.mem iter)) iter temp) temp size })

/-- How far the heap grows for a block behind the last header; a quotient is cut off. -/
def expand (iter size : ℤ) : ℤ :=
  let expand := int32 (size - (s.mallocEnd - iter - s.mem iter))
  int32 ((int32 (expand + PAGE_SIZE - 1)).tdiv PAGE_SIZE * PAGE_SIZE)

/-- A header behind the last one. -/
def extend (iter size : ℤ) (grant : Bool) : ℤ × State :=
  let s := s.sbrk (s.expand iter size) grant
  let temp := uint32 (iter + s.mem iter)
  (uint32 (temp + HEADER), { s with
    mallocEnd := s.fakeedata
    mem := setNlink (setSize (setNlink s.mem iter temp) temp size) temp 0 })

/-- `malloc`. -/
def malloc (size : ℤ) (grant₀ grant₁ grant₂ : Bool) : Option (ℤ × State) :=
  let s := s.begin grant₀ grant₁
  if size = 0 then some (0, s)
  else
    match place s.mem (roundUp size) WALK s.mallocHead with
    | none => none
    | some (true, iter) => some (s.split iter (roundUp size))
    | some (false, iter) => some (s.extend iter (roundUp size) grant₂)

/-- The end of `free`: whole pages go back when more than two are free at the end. -/
def shrink (last : ℤ) (grant : Bool) : State :=
  let room := int32 (s.mallocEnd - uint32 (last + s.mem last))
  if nlink s.mem last = 0 ∧ room > PAGE_SIZE * 2 then
    let s' := s.sbrk (-(room.tdiv PAGE_SIZE * PAGE_SIZE)) grant
    { s' with mallocEnd := s'.fakeedata }
  else s

/-- `free`. -/
def free (addr : ℤ) (grant : Bool) : Option (ℤ × State) :=
  if addr = 0 then some (-1, s)
  else
    match search s.mem (uint32 (addr - 8)) WALK s.mallocHead s.mallocHead with
    | none => none
    | some none => some (-1, s)
    | some (some last) =>
      some (0, { s with
        mem := setNlink s.mem last (nlink s.mem (uint32 (addr - 8))) }.shrink last grant)

end State

/-- What a program does with its heap, and what the kernel says to every `brk`. -/
inductive Event
  | malloc (size : UInt32) (grant₀ grant₁ grant₂ : Bool)
  | free (addr : ℤ) (grant : Bool)
  /-- The program stores to its blocks. -/
  | store (mem : ℤ → ℤ)

/-- A block comes into use when it is returned, and goes out of use when it is freed. -/
def Step (s : State) (e : Event) (s' : State) : Prop :=
  match e with
  | .malloc size g₀ g₁ g₂ => ∃ p t, s.malloc size.toNat g₀ g₁ g₂ = some (p, t) ∧
      s' = { t with live := if p = 0 then t.live else (p, (size.toNat : ℤ)) :: t.live }
  | .free addr g => (∃ n, (addr, n) ∈ s.live) ∧ ∃ r t, s.free addr g = some (r, t) ∧
      s' = { t with live := t.live.filter (·.1 ≠ addr) }
  | .store mem => (∀ a, (∀ b ∈ s.live, ¬(b.1 ≤ a ∧ a < b.1 + b.2)) → mem a = s.mem a) ∧
      s' = { s with mem := mem }

/-- Before the first call. -/
def start (mem : ℤ → ℤ) (brk : ℤ) : State := ⟨mem, 0, 0, 0, 0, brk, []⟩

end Heap
end UnixV6pp
