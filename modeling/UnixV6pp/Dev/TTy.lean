import UnixV6pp.Lib.Ring
import UnixV6pp.Lib.Runs
import Mathlib.Data.Int.Notation
import Mathlib.Data.List.Count
import Mathlib.Algebra.Group.Nat.Defs

/-!
# The console

`TTyInput` puts what is typed into the raw queue, with a delimiter behind every line.  `Canon`
cooks one line in its work buffer and puts it into the canonical queue, and `TTRead` passes
characters on from there.  The keyboard interrupts a read between any two of its steps.

## Main definitions

* `TTyQueue`, `TTy` — the queues, and the terminal.
* `Stage`, `State` — where the read in progress is, and the system.
* `State.ttyInput`, `State.ttRead`, `State.advance` — the interrupt, the call, and its next step.

## Main results

* `TTyQueue.contents_putChar`, `TTyQueue.contents_getChar` — what a queue does to its contents.
-/

namespace UnixV6pp
namespace Tty

/-- `TTy_Queue::TTY_BUF_SIZE`. -/
def TTY_BUF_SIZE : ℕ := 512

/-- `TTy::CANBSIZ`. -/
def CANBSIZ : ℕ := 256

/-- `TTy::CERASE`. -/
def CERASE : Int8 := 8

/-- `TTy::CEOT`. -/
def CEOT : Int8 := 4

/-- `TTy::CKILL`. -/
def CKILL : Int8 := 0x15

/-- `TTy::GET_ERROR`. -/
def GET_ERROR : Int8 := -1

/-- The delimiter behind an input string. -/
def DELIM : Int8 := 7

/-- `'\n'`. -/
def NEWLINE : Int8 := 10

/-- `'\r'`. -/
def RETURN : Int8 := 13

/-- The backslash. -/
def ESCAPE : Int8 := 92

def LCASE : UInt32 := 0x4
def ECHO : UInt32 := 0x8
def CRMOD : UInt32 := 0x10
def RAW : UInt32 := 0x20

def ISOPEN : UInt32 := 0x1
def CARR_ON : UInt32 := 0x2

/-- `TTy_Queue`. -/
structure TTyQueue where
  mHead : ℕ
  mTail : ℕ
  mCharBuf : ℕ → Int8

namespace TTyQueue

variable (q : TTyQueue)

def getChar : Int8 × TTyQueue :=
  if q.mHead = q.mTail then (GET_ERROR, q)
  else (q.mCharBuf q.mTail, { q with mTail := (q.mTail + 1) % TTY_BUF_SIZE })

def putChar (ch : Int8) : TTyQueue :=
  { q with
    mCharBuf := Function.update q.mCharBuf q.mHead ch
    mHead := (q.mHead + 1) % TTY_BUF_SIZE }

/-- The difference of two `unsigned int`s, masked. -/
def charNum : ℕ := (q.mHead + 2 ^ 32 - q.mTail) % 2 ^ 32 &&& (TTY_BUF_SIZE - 1)

/-- The characters that are waiting. -/
def contents : List Int8 := ringList TTY_BUF_SIZE q.mHead q.mTail q.mCharBuf

/-- Both ends are places of the queue. -/
structure Ok : Prop where
  head_lt : q.mHead < TTY_BUF_SIZE
  tail_lt : q.mTail < TTY_BUF_SIZE

variable {q}

theorem Ok.charNum_eq (h : q.Ok) : q.charNum = q.contents.length := by
  have hhead : q.mHead < 512 := h.head_lt
  have htail : q.mTail < 512 := h.tail_lt
  rw [contents, length_ringList, charNum, ringSize, show TTY_BUF_SIZE - 1 = 2 ^ 9 - 1 from rfl,
    Nat.and_two_pow_sub_one_eq_mod, show TTY_BUF_SIZE = 512 from rfl]
  omega

theorem Ok.putChar (h : q.Ok) (ch : Int8) : (q.putChar ch).Ok :=
  ⟨Nat.mod_lt _ (by decide), h.tail_lt⟩

theorem Ok.getChar (h : q.Ok) : q.getChar.2.Ok := by
  unfold TTyQueue.getChar
  split
  · exact h
  · exact ⟨h.head_lt, Nat.mod_lt _ (by decide)⟩

/-- **A character goes to the end**, while a place stays free. -/
theorem Ok.contents_putChar (h : q.Ok) (hroom : q.contents.length + 1 < TTY_BUF_SIZE)
    (ch : Int8) : (q.putChar ch).contents = q.contents ++ [ch] := by
  rw [contents, length_ringList] at hroom
  exact ringList_put h.head_lt h.tail_lt hroom _ ch

/-- **The first character is taken.** -/
theorem Ok.getChar_cons (h : q.Ok) {ch : Int8} {cs : List Int8} (hq : q.contents = ch :: cs) :
    q.getChar.1 = ch ∧ q.getChar.2.contents = cs := by
  have hne : q.mHead ≠ q.mTail := by
    intro heq
    have hnil : q.contents = [] := (ringList_eq_nil h.head_lt h.tail_lt _).mpr heq
    rw [hnil] at hq
    cases hq
  rw [contents, ringList_get h.head_lt h.tail_lt hne, List.cons.injEq] at hq
  rw [TTyQueue.getChar, if_neg hne]
  exact hq

theorem Ok.getChar_nil (h : q.Ok) (hq : q.contents = []) : q.getChar = (GET_ERROR, q) := by
  rw [TTyQueue.getChar, if_pos ((ringList_eq_nil h.head_lt h.tail_lt _).mp hq)]

end TTyQueue

/-- `TTy`; `t_outq` is left out. -/
structure TTy where
  tRawq : TTyQueue
  tCanq : TTyQueue
  tFlags : UInt32
  tDelct : ℤ
  tErase : Int8
  tKill : Int8
  tState : UInt32
  canonb : ℕ → Int8

/-- Where the read in progress is. -/
inductive Stage
  /-- There is none. -/
  | idle
  /-- `Canon` at the test of `t_delct`, asleep or not. -/
  | wait
  /-- `Canon` takes characters from the raw queue. -/
  | cook (pChar : ℕ)
  /-- `Canon` puts characters into the canonical queue. -/
  | store (pChar pEnd : ℕ)
  /-- The loop of `TTRead`. -/
  | pass
deriving DecidableEq

structure State where
  tty : TTy
  stage : Stage
  /-- `u.u_IOParam.m_Count`. -/
  mCount : ℤ
  /-- What the reads so far have stored. -/
  returned : List Int8
  /-- What has been typed. -/
  typed : List Int8

/-- `TTyInput`, without the echo. -/
def TTy.ttyInput (t : TTy) (ch : Int8) : TTy :=
  let ch := if ch = RETURN ∧ t.tFlags &&& CRMOD ≠ 0 then NEWLINE else ch
  let ch := if t.tFlags &&& LCASE ≠ 0 ∧ 65 ≤ ch ∧ ch ≤ 90 then ch + 32 else ch
  let t := { t with tRawq := t.tRawq.putChar ch }
  if t.tFlags &&& RAW ≠ 0 ∨ ch = NEWLINE ∨ ch = CEOT then
    { t with tRawq := t.tRawq.putChar DELIM, tDelct := t.tDelct + 1 }
  else t

namespace State

variable (s : State)

def ttyInput (ch : Int8) : State :=
  { s with tty := s.tty.ttyInput ch, typed := s.typed ++ [ch] }

/-- `TTRead` is called. -/
def ttRead (count : ℤ) : State :=
  if s.tty.tState &&& CARR_ON = 0 then s
  else if s.tty.tCanq.charNum ≠ 0 then { s with mCount := count, stage := .pass }
  else { s with mCount := count, stage := .wait }

/-- `Canon` tests `t_delct`, and may go to sleep. -/
def canonTest : State :=
  if s.tty.tDelct = 0 then
    if s.tty.tState &&& CARR_ON = 0 then { s with stage := .idle } else s
  else { s with stage := .cook 2 }

/-- An ordinary character goes to the work buffer. -/
def canonPut (t : TTy) (pChar : ℕ) (ch : Int8) : State :=
  { s with
    tty := { t with canonb := Function.update t.canonb pChar ch }
    stage := if pChar + 1 ≥ CANBSIZ then .store 2 (pChar + 1) else .cook (pChar + 1) }

/-- `Canon` takes one character. -/
def canonGet (pChar : ℕ) : State :=
  let ch := s.tty.tRawq.getChar.1
  let t := { s.tty with tRawq := s.tty.tRawq.getChar.2 }
  if ch < 0 then { s with tty := t, stage := .store 2 pChar }
  else if ch = DELIM then
    { s with tty := { t with tDelct := t.tDelct - 1 }, stage := .store 2 pChar }
  else if t.tFlags &&& RAW = 0 ∧ t.canonb (pChar - 1) ≠ ESCAPE then
    if ch = t.tErase then
      { s with tty := t, stage := .cook (if pChar > 2 then pChar - 1 else pChar) }
    else if ch = t.tKill then { s with tty := t, stage := .cook 2 }
    else if ch = CEOT then { s with tty := t, stage := .cook pChar }
    else s.canonPut t pChar ch
  else s.canonPut t pChar ch

/-- `Canon` puts one character of the work buffer into the canonical queue, or returns. -/
def canonStore (pChar pEnd : ℕ) : State :=
  if pChar < pEnd then
    { s with
      tty := { s.tty with tCanq := s.tty.tCanq.putChar (s.tty.canonb pChar) }
      stage := .store (pChar + 1) pEnd }
  else { s with stage := .pass }

/-- `PassC`: whether the character was stored. -/
def passC (ch : Int8) : Bool × State :=
  if s.mCount > 0 then
    (true, { s with returned := s.returned ++ [ch], mCount := s.mCount - 1 })
  else (false, s)

/-- One turn of the loop of `TTRead`. -/
def ttReadLoop : State :=
  if s.tty.tCanq.charNum ≠ 0 then
    let r := { s with tty := { s.tty with tCanq := s.tty.tCanq.getChar.2 } }.passC
      s.tty.tCanq.getChar.1
    if r.1 then r.2 else { r.2 with stage := .idle }
  else { s with stage := .idle }

/-- The read in progress goes on. -/
def advance : State :=
  match s.stage with
  | .idle => s
  | .wait => s.canonTest
  | .cook pChar => s.canonGet pChar
  | .store pChar pEnd => s.canonStore pChar pEnd
  | .pass => s.ttReadLoop

/-- What is in the work buffer and not yet in the canonical queue. -/
def work : List Int8 :=
  match s.stage with
  | .cook pChar => (List.range' 2 (pChar - 2)).map s.tty.canonb
  | .store pChar pEnd => (List.range' pChar (pEnd - pChar)).map s.tty.canonb
  | _ => []

/-- The characters that are typed and not passed on. -/
def pending : List Int8 :=
  s.tty.tCanq.contents ++ (s.work ++ s.tty.tRawq.contents.filter (· ≠ DELIM))

end State

/-- What happens to the terminal. -/
inductive Event
  /-- A key. -/
  | key (ch : Int8)
  /-- A call of `TTRead`, once the one before has returned. -/
  | read (count : ℤ)
  /-- The read in progress goes on. -/
  | step

namespace Event

def Enabled (s : State) : Event → Prop
  | read _ => s.stage = .idle
  | _ => True

def next (s : State) : Event → State
  | key ch => s.ttyInput ch
  | read count => s.ttRead count
  | step => s.advance

end Event

def Step (s : State) (e : Event) (s' : State) : Prop := e.Enabled s ∧ s' = e.next s

/-- After `ConsoleDevice::Open`. -/
def opened : State where
  tty := {
    tRawq := ⟨0, 0, fun _ => 0⟩
    tCanq := ⟨0, 0, fun _ => 0⟩
    tFlags := ECHO
    tDelct := 0
    tErase := CERASE
    tKill := CKILL
    tState := ISOPEN ||| CARR_ON
    canonb := fun _ => 0 }
  stage := .idle
  mCount := 0
  returned := []
  typed := []

end Tty
end UnixV6pp
