import UnixV6pp.Lib.Copy
import UnixV6pp.Lib.CString
import UnixV6pp.Lib.Fallible
import UnixV6pp.Lib.Words
import UnixV6pp.Proc.TableOwners

/-!
# The arguments of a program

`Exec` copies the strings of `argv` to the end of an area of the kernel, from its top downwards,
and replaces each pointer in `argv` by the address that its string will have; then come the end mark
of the array, the array, its address and `argc`.  As much of the area as the new stack has is copied
there at the end.

A read of a string that leaves the user space stops the model, and so does a write outside of the
area, or a copy of more than the user space.

## Main definitions

* `copyArg`, `copyArgs`, `copyStack` — the loop's body, the copy to the area, and that to the stack.
* `execArgs` — both, with the area that `AllocMemory` finds.
* `Caller`, `KernelPool` — what calls, and the pages of the kernel.
* `Handed`, `Passes` — what should come of it.
* `used`, `address`, `slots` — the bytes of some strings, their addresses, and the array after the
  pointers have been replaced.
-/

namespace UnixV6pp
namespace Arguments

open Words Paging Allocator TableOwners

/-- The text of a string. -/
abbrev Text := List UInt8

/-- Why the model stops. -/
inductive Stop
  /-- A string does not end in the user space, or more than that is written. -/
  | user
  /-- A write outside of the area. -/
  | area
deriving DecidableEq

/-! ### The code -/

/-- `while( NULL != argv[i][length] )`, where so many bytes of the user space are left. -/
def stringLength (mem : ℕ → UInt8) : ℕ → ℕ → Except Stop ℕ
  | 0, _ => .error .user
  | limit + 1, p => if mem p = 0 then .ok 0 else (stringLength mem limit (p + 1)).map (· + 1)

/-- `fakeStack` and `allocLength`. -/
structure Area where
  fakeStack : ℕ
  length : ℕ

namespace Area

/-- The address of its first byte in the kernel. -/
def base (k : Area) : ℕ := k.fakeStack + 0xC0000000

/-- `AllocMemory` has found an area, and the bytes are in it. -/
def Inside (k : Area) (des count : ℕ) : Prop :=
  k.fakeStack ≠ 0 ∧ k.base ≤ des ∧ des + count ≤ k.base + k.length

instance (k : Area) (des count : ℕ) : Decidable (k.Inside des count) := by
  unfold Inside; infer_instance

end Area

/-- The memory, and the two pointers that are moved down. -/
structure Copying where
  mem : ℕ → UInt8
  desAddress : ℕ
  esp : ℕ

namespace Copying

/-- Both pointers, so many bytes further down. -/
def down (s : Copying) (n : ℕ) : Copying :=
  { s with
    desAddress := (s.desAddress + 2 ^ 32 - n) % 2 ^ 32
    esp := (s.esp + 2 ^ 32 - n) % 2 ^ 32 }

/-- `Utility::MemCopy` from `src` to `desAddress`. -/
def memCopy (s : Copying) (k : Area) (src count : ℕ) : Except Stop Copying :=
  if k.Inside s.desAddress count then
    .ok { s with mem := Copy.copyUp s.mem src s.desAddress count }
  else .error .area

/-- `Utility::MemCopy` from a variable of the kernel that holds `v`. -/
def putInt (s : Copying) (k : Area) (v : ℕ) : Except Stop Copying :=
  if k.Inside s.desAddress 4 then .ok { s with mem := setWord s.mem s.desAddress v }
  else .error .area

/-- Both pointers are aligned. -/
def align (s : Copying) : Copying :=
  { s with desAddress := s.desAddress &&& 0xFFFFFFF0, esp := s.esp &&& 0xFFFFFFF0 }

end Copying

/-- The body of the loop: one string. -/
def copyArg (k : Area) (argv : ℕ) (s : Copying) (i : ℕ) : Except Stop Copying := do
  let p := getWord s.mem (argv + 4 * i)
  let length ← stringLength s.mem (USER_SPACE_SIZE - p) p
  let s ← (s.down (length + 1)).memCopy k p (length + 1)
  .ok { s with mem := setWord s.mem (argv + 4 * i) s.esp }

/-- What is written to the area. -/
def copyArgs (k : Area) (argc argv : ℕ) (mem : ℕ → UInt8) : Except Stop Copying := do
  let s ← (List.range argc).foldlM (copyArg k argv)
    ⟨mem, (k.fakeStack + k.length + 0xC0000000) % 2 ^ 32, USER_SPACE_SIZE⟩
  let s ← (s.align.down 4).putInt k 0
  let s ← (s.down (4 * argc)).memCopy k argv (4 * argc)
  let endValue := s.esp
  let s ← (s.down 4).putInt k endValue
  (s.down 4).putInt k argc

/-- The end of the area is copied to the stack of the new program. -/
def copyStack (k : Area) (stackSize : ℕ) (s : Copying) (image : ℕ → UInt8) :
    Except Stop (ℕ → UInt8) :=
  if stackSize ≤ USER_SPACE_SIZE then
    .ok (Copy.copyUp (fun a => if a < USER_SPACE_SIZE then image a else s.mem a)
      ((k.fakeStack + k.length + 2 ^ 32 - stackSize) % 2 ^ 32 ||| 0xC0000000)
      (USER_SPACE_SIZE - stackSize) stackSize)
  else .error .user

/-- The parts of `Exec` that have to do with the arguments: `esp` and the memory afterwards, where
`image` is the new program as `Relocate` leaves it. -/
def execArgs (pool : MapState) (stackSize argc argv : ℕ) (mem image : ℕ → UInt8) :
    Except Stop (ℕ × (ℕ → UInt8)) := do
  let fakeStack := (pool.allocMemory (allocLength stackSize)).1.toNat
  let k : Area := ⟨fakeStack, (allocLength stackSize).toNat⟩
  let s ← copyArgs k argc argv mem
  let mem ← copyStack k stackSize s image
  .ok (s.esp, mem)

/-! ### What is expected -/

/-- The string at an address of the user space. -/
def textAt (mem : ℕ → UInt8) (p : ℕ) : Option Text := textFrom mem (USER_SPACE_SIZE - p) p

/-- The arguments of `exec`: an array of pointers to strings, all in the user space. -/
structure Caller where
  mem : ℕ → UInt8
  argc : ℕ
  argv : ℕ
  array_le : argv + 4 * argc ≤ USER_SPACE_SIZE
  text : ∀ i < argc, ∃ t, textAt mem (getWord mem (argv + 4 * i)) = some t

/-- Its strings. -/
def Caller.texts (c : Caller) : List Text :=
  (List.range c.argc).map fun i => (textAt c.mem (getWord c.mem (c.argv + 4 * i))).getD []

/-- The pages of the kernel, some of which may be in use. -/
structure KernelPool where
  pool : MapState
  inv : Inv (Set.Ico 0x204 0x400) pool

/-- The words at `esp`, the array and the strings, by their addresses and sizes. -/
def pieces (mem : ℕ → UInt8) (esp : ℕ) (ts : List Text) : List (ℕ × ℕ) :=
  (esp, 8) :: (getWord mem (esp + 4), 4 * (ts.length + 1)) ::
    (List.range ts.length).map fun i =>
      (getWord mem (getWord mem (esp + 4) + 4 * i), (ts.getD i []).length + 1)

/-- At `esp` there are the number of the strings and the address of an array of pointers to them,
with a zero at the end; all that is in the stack, and nothing overlaps. -/
structure Handed (ts : List Text) (stackSize esp : ℕ) (mem : ℕ → UInt8) : Prop where
  argc : getWord mem esp = ts.length
  strings : ∀ i < ts.length,
    textAt mem (getWord mem (getWord mem (esp + 4) + 4 * i)) = some (ts.getD i [])
  ended : getWord mem (getWord mem (esp + 4) + 4 * ts.length) = 0
  inStack : ∀ x ∈ pieces mem esp ts,
    USER_SPACE_SIZE ≤ x.1 + stackSize ∧ x.1 + x.2 ≤ USER_SPACE_SIZE
  apart : (pieces mem esp ts).Pairwise fun x y => x.1 + x.2 ≤ y.1 ∨ y.1 + y.2 ≤ x.1

/-- Nothing outside of the area is written, and the new program finds its arguments. -/
def Passes (kernel : KernelPool) (stackSize : ℕ) (c : Caller) : Prop :=
  ∀ image, ∃ r, execArgs kernel.pool stackSize c.argc c.argv c.mem image = .ok r ∧
    Handed c.texts stackSize r.1 r.2

/-! ### The condition -/

/-- What some strings take. -/
def used (ts : List Text) : ℕ := (ts.map fun t => t.length + 1).sum

/-- Where the string `i` goes. -/
def address (ts : List Text) (i : ℕ) : ℕ := USER_SPACE_SIZE - used (ts.take (i + 1))

/-- The strings, up to the next 16 bytes, and the words below them. -/
def total (ts : List Text) : ℕ := (used ts + 15) / 16 * 16 + 4 * (ts.length + 3)

/-- The memory when the pointers of the array at `a` have been replaced, the first by an address
below `esp`. -/
def slots (mem : ℕ → UInt8) : ℕ → ℕ → List Text → ℕ → UInt8
  | _, _, [] => mem
  | a, esp, t :: ts =>
    slots (setWord mem a (esp - (t.length + 1))) (a + 4) (esp - (t.length + 1)) ts

/-- No string is changed by the pointers that are replaced before it is copied. -/
def Caller.Apart (c : Caller) : Prop :=
  ∀ i < c.argc, textAt (slots c.mem c.argv USER_SPACE_SIZE (c.texts.take i))
    (getWord c.mem (c.argv + 4 * i)) = some (c.texts.getD i [])

end Arguments
end UnixV6pp
