import UnixV6pp.Dev.TTyWrite
import Mathlib.Logic.Function.Iterate

/-!
# The console's screen

`CRTStart` takes the characters out of the output queue one by one and moves a cursor over the
rows of the console; a backspace is let through while `m_Position` and `m_BeginChar` differ, two
pointers into the ring of the queue. The system call `trace` changes the number of rows. An
interrupt may put characters into the queue and start the screen between any two steps.

## Main definitions

* `CRT` — the static members, with a record of what is written to the video memory.
* `CRT.put` — what the loop of `CRTStart` does with one character.
* `State`, `Event`, `Step` — the queue and the screen, and what happens to them.
* `Good`, `Safe` — the condition on a step, and what should hold in every state.

## Main results

* `turns_tOutq` — the turns of the loop take what `crtStart` sends.
* `Inv.step` — what a step keeps.
* `run_safe` — **the cursor and the writes stay in the rows, and nothing confirmed is erased**, in
  every run of good steps.
-/

namespace UnixV6pp
namespace Console

open Tty

/-! ### The screen -/

/-- `CRT::COLUMNS`. -/
def COLUMNS : ℕ := 80

/-- `CRT::COLOR`. -/
def COLOR : ℕ := 0x0F00

/-- `Diagnose::SCREEN_ROWS`. -/
def SCREEN_ROWS : ℕ := 25

def TAB : Int8 := 9

/-- A write to the video memory: the cell, what is written, and the number of rows then. The cells
before `kept` hold characters that must not be erased. -/
structure VideoWrite where
  cell : ℕ
  value : ℕ
  rows : ℕ
  kept : ℕ
deriving DecidableEq

/-- The members of `CRT`; a pointer is an offset from the first place of the queue. -/
structure CRT where
  rows : ℕ
  mCursorX : ℕ
  mCursorY : ℕ
  mPosition : Option ℤ
  mBeginChar : Option ℤ
  /-- The column in the row of the cursor before which the characters are confirmed: the cursor's
  own when `m_BeginChar` was set, or 0 if it was in another row. -/
  confirmed : ℕ
  /-- What has been written. -/
  writes : List VideoWrite
deriving DecidableEq

namespace CRT

variable (c : CRT)

/-- The index of a cell, an `unsigned int`. -/
def cell (y x : ℕ) : ℕ := (y * COLUMNS + x) % 2 ^ 32

/-- A character and its colour are written. -/
def write (i : ℕ) (ch : Int8) (kept : ℕ) : CRT :=
  { c with writes := ⟨i, ch.toUInt8.toNat ||| COLOR, c.rows, kept⟩ :: c.writes }

def clearScreen : CRT :=
  { c with
    writes := ((List.range (COLUMNS * c.rows % 2 ^ 32)).map fun i =>
      (⟨i, 32 ||| COLOR, c.rows, 0⟩ : VideoWrite)) ++ c.writes }

def nextLine : CRT :=
  let c := { c with mCursorX := 0, mCursorY := (c.mCursorY + 1) % 2 ^ 32, confirmed := 0 }
  if c.mCursorY ≥ c.rows then { c with mCursorY := 0 }.clearScreen else c

/-- An unsigned number is never below 0, so that the row above is never gone back to. -/
def backSpace : CRT :=
  let kept := c.mCursorY * COLUMNS + c.confirmed
  let c := { c with mCursorX := (c.mCursorX + 2 ^ 32 - 1) % 2 ^ 32 }
  c.write (cell c.mCursorY c.mCursorX) 32 kept

def tab : CRT :=
  let c := { c with mCursorX := (c.mCursorX / 8 * 8 + 8) % 2 ^ 32 }
  if c.mCursorX ≥ COLUMNS then c.nextLine else c

def writeChar (ch : Int8) : CRT :=
  let c := c.write (cell c.mCursorY c.mCursorX) ch 0
  let c := { c with mCursorX := (c.mCursorX + 1) % 2 ^ 32 }
  if c.mCursorX ≥ COLUMNS then c.nextLine else c

/-- The first lines of `CRTStart`. -/
def start (currentChar : ℤ) : CRT :=
  let c := { c with mBeginChar := some (c.mBeginChar.getD currentChar) }
  { c with mPosition := if c.mPosition = none then c.mBeginChar else c.mPosition }

/-- `m_Position` moves by `d`. -/
def move (d : ℤ) : CRT := { c with mPosition := c.mPosition.map (· + d) }

/-- The loop of `CRTStart` for one character; `currentChar` is the place behind it. -/
def put (ch : Int8) (currentChar : ℤ) : CRT :=
  if ch = NEWLINE then
    { c.nextLine with mBeginChar := some currentChar, mPosition := some currentChar }
  else if ch = CKILL then c
  else if ch = CERASE then
    if c.mPosition ≠ c.mBeginChar then c.backSpace.move (-1) else c
  else if ch = TAB then c.tab.move 1
  else (c.writeChar ch).move 1

end CRT

/-! ### The system -/

/-- The output queue, the screen, and `Diagnose::ROWS`. -/
structure State where
  tOutq : TTyQueue
  crt : CRT
  diagnoseRows : ℕ

inductive Event
  /-- A character is put into the queue. -/
  | output (ch : Int8)
  /-- `CRTStart` is called. -/
  | start
  /-- A turn of its loop. -/
  | turn
  /-- `TTWrite` sets `m_BeginChar` at its end. -/
  | confirm
  /-- The system call `trace`. -/
  | trace (arg : BitVec 32)
deriving DecidableEq

namespace State

variable (s : State)

/-- A turn of the loop of `CRTStart`. -/
def turn : State :=
  let ch := s.tOutq.getChar.1
  let q := s.tOutq.getChar.2
  if ch = GET_ERROR then { s with tOutq := q }
  else { s with tOutq := q, crt := s.crt.put ch q.mTail }

def confirm : State :=
  { s with
    crt := { s.crt with mBeginChar := some s.tOutq.mTail, confirmed := s.crt.mCursorX } }

/-- `CRT::ROWS` after `trace`. -/
def rowsAfter (arg : BitVec 32) : ℕ :=
  if s.diagnoseRows = 0 then (SCREEN_ROWS + 2 ^ 32 - arg.toNat) % 2 ^ 32 else SCREEN_ROWS

/-- `Sys_Trace`. -/
def trace (arg : BitVec 32) : State :=
  { s with
    diagnoseRows := if s.diagnoseRows = 0 then arg.toNat else 0
    crt := { s.crt with rows := s.rowsAfter arg } }

end State

namespace Event

/-- `CRTStart` has been called before its loop runs, and before `TTWrite` ends. -/
def Enabled (s : State) : Event → Prop
  | turn | confirm => s.crt.mPosition ≠ none ∧ s.crt.mBeginChar ≠ none
  | _ => True

instance (s : State) (e : Event) : Decidable (e.Enabled s) := by
  cases e <;> unfold Enabled <;> infer_instance

def next (s : State) : Event → State
  | output ch => { s with tOutq := s.tOutq.putChar ch }
  | start => { s with crt := s.crt.start s.tOutq.mTail }
  | turn => s.turn
  | confirm => s.confirm
  | trace arg => s.trace arg

end Event

def Step (s : State) (e : Event) (s' : State) : Prop := e.Enabled s ∧ s' = e.next s

/-- Before the first call; `Diagnose` has ten rows of the screen. -/
def boot : State where
  tOutq := ⟨0, 0, fun _ => 0⟩
  crt := ⟨15, 0, 0, none, none, 0, []⟩
  diagnoseRows := 10

/-- As many turns as `crtStart` sends characters, and one for the end, leave the queue that it
leaves. -/
theorem turns_tOutq {fuel : ℕ} {s : State} (h : s.tOutq.Ok)
    (hfuel : s.tOutq.contents.length < fuel) :
    (State.turn^[(drain fuel s.tOutq).1.length + 1] s).tOutq = (drain fuel s.tOutq).2 := by
  induction fuel generalizing s with
  | zero => omega
  | succ fuel ih =>
    rw [drain, Function.iterate_succ_apply]
    dsimp only
    split
    next herr =>
      rw [List.length_nil, Function.iterate_zero_apply, State.turn]
      dsimp only
      rw [if_pos herr]
    next herr =>
      have hturn : s.turn.tOutq = s.tOutq.getChar.2 := by
        rw [State.turn, if_neg herr]
      have hlt : s.tOutq.getChar.2.contents.length < fuel := by
        cases hq : s.tOutq.contents with
        | nil =>
          rw [h.getChar_nil hq] at herr
          exact absurd rfl herr
        | cons ch cs =>
          rw [hq, List.length_cons] at hfuel
          rw [(h.getChar_cons hq).2]
          omega
      rw [List.length_cons, ← hturn]
      exact ih (hturn ▸ h.getChar) (hturn ▸ hlt)

/-! ### What is expected -/

/-- A write to a cell of the console's own rows of the screen that erases nothing confirmed. -/
def VideoWrite.Ok (w : VideoWrite) : Prop :=
  w.kept ≤ w.cell ∧ w.cell < w.rows * COLUMNS ∧ w.rows ≤ SCREEN_ROWS

/-- The cursor is in the console's rows, and all writes have been right. -/
structure Safe (s : State) : Prop where
  column : s.crt.mCursorX < COLUMNS
  row : s.crt.mCursorY < s.crt.rows
  writes : ∀ w ∈ s.crt.writes, w.Ok

/-- A backspace that is let through does not come in column 0; `TTWrite` ends with `m_Position` at
the next character of the queue; and `trace` leaves the console the row of the cursor, and no more
rows than the screen has. -/
def Good (s : State) : Event → Prop
  | .turn => s.tOutq.getChar.1 = CERASE → s.crt.mPosition ≠ s.crt.mBeginChar → s.crt.mCursorX ≠ 0
  | .confirm => s.crt.mPosition = some (s.tOutq.mTail : ℤ)
  | .trace arg => s.crt.mCursorY < s.rowsAfter arg ∧ s.rowsAfter arg ≤ SCREEN_ROWS
  | _ => True

instance (s : State) (e : Event) : Decidable (Good s e) := by
  cases e <;> unfold Good <;> infer_instance

/-! ### Within the rows -/

namespace CRT

/-- The cursor and all writes are in the rows of the console, and these on the screen. -/
structure Fits (c : CRT) : Prop where
  column : c.mCursorX < COLUMNS
  row : c.mCursorY < c.rows
  rows : c.rows ≤ SCREEN_ROWS
  writes : ∀ w ∈ c.writes, w.Ok

/-- The pointers are as far apart as there are characters that are not confirmed; those of the
cursor's row are behind the confirmed ones. -/
def Anchored (c : CRT) : Prop :=
  ∃ b p, c.mBeginChar = some b ∧ c.mPosition = some p ∧ b ≤ p ∧
    (c.confirmed = 0 ∨ (c.confirmed : ℤ) + (p - b) ≤ c.mCursorX)

variable {c : CRT}

/-- The index of a cell does not wrap. -/
theorem cell_eq {y x rows : ℕ} (hx : x < COLUMNS) (hy : y < rows) (hrows : rows ≤ SCREEN_ROWS) :
    cell y x = y * COLUMNS + x ∧ cell y x < rows * COLUMNS := by
  unfold cell COLUMNS at *
  unfold SCREEN_ROWS at hrows
  omega

theorem writes_write {i : ℕ} {ch : Int8} {kept : ℕ} (h : ∀ w ∈ c.writes, w.Ok) (hkept : kept ≤ i)
    (hcell : i < c.rows * COLUMNS) (hrows : c.rows ≤ SCREEN_ROWS) :
    ∀ w ∈ (c.write i ch kept).writes, w.Ok := by
  intro w hw
  rcases List.mem_cons.mp hw with rfl | hw
  · exact ⟨hkept, hcell, hrows⟩
  · exact h w hw

theorem writes_clearScreen (h : ∀ w ∈ c.writes, w.Ok) (hrows : c.rows ≤ SCREEN_ROWS) :
    ∀ w ∈ c.clearScreen.writes, w.Ok := by
  intro w hw
  rcases List.mem_append.mp hw with hw | hw
  · obtain ⟨i, hi, rfl⟩ := List.mem_map.mp hw
    have hlt : i < COLUMNS * c.rows := Nat.lt_of_lt_of_le (List.mem_range.mp hi) (Nat.mod_le _ _)
    exact ⟨Nat.zero_le _, Nat.mul_comm COLUMNS c.rows ▸ hlt, hrows⟩
  · exact h w hw

/-- A new line, whatever the column was; the pointers stay. -/
theorem fits_nextLine (hrow : c.mCursorY < c.rows) (hrows : c.rows ≤ SCREEN_ROWS)
    (hwrites : ∀ w ∈ c.writes, w.Ok) : c.nextLine.Fits ∧ c.nextLine.confirmed = 0 ∧
      c.nextLine.mBeginChar = c.mBeginChar ∧ c.nextLine.mPosition = c.mPosition := by
  have hcolumn : 0 < COLUMNS := by decide
  unfold nextLine
  dsimp only
  split
  next =>
    exact ⟨⟨hcolumn, Nat.zero_lt_of_lt hrow, hrows, writes_clearScreen hwrites hrows⟩,
      rfl, rfl, rfl⟩
  next hlt => exact ⟨⟨hcolumn, Nat.lt_of_not_ge hlt, hrows, hwrites⟩, rfl, rfl, rfl⟩

/-- The cursor at a column `x` behind its own, on a new line if that is outside. -/
theorem fits_forward {x : ℕ} (h : c.Fits) (hc : c.Anchored) (hx : c.mCursorX < x) :
    let c' := { c with mCursorX := x }
    let r := if c'.mCursorX ≥ COLUMNS then c'.nextLine else c'
    r.Fits ∧ (r.move 1).Anchored := by
  obtain ⟨b, p, hb, hp, hle, hconfirmed⟩ := hc
  dsimp only
  split
  next hge =>
    obtain ⟨hfits, hzero, hbegin, hposition⟩ :=
      @fits_nextLine { c with mCursorX := x } h.row h.rows h.writes
    refine ⟨hfits, b, p + 1, hbegin.trans hb, ?_, by omega, Or.inl hzero⟩
    rw [move, hposition]
    exact congrArg (Option.map (· + 1)) hp
  next hlt =>
    refine ⟨⟨Nat.lt_of_not_ge hlt, h.row, h.rows, h.writes⟩, b, p + 1, hb, ?_, by omega, ?_⟩
    · exact congrArg (Option.map (· + 1)) hp
    · change c.confirmed = 0 ∨ (c.confirmed : ℤ) + (p + 1 - b) ≤ x
      omega

theorem fits_tab (h : c.Fits) (hc : c.Anchored) : c.tab.Fits ∧ (c.tab.move 1).Anchored := by
  have hcolumn := h.column
  unfold COLUMNS at hcolumn
  exact fits_forward h hc (by omega)

theorem fits_writeChar (h : c.Fits) (hc : c.Anchored) (ch : Int8) :
    (c.writeChar ch).Fits ∧ ((c.writeChar ch).move 1).Anchored := by
  have hcolumn := h.column
  have hcell := cell_eq h.column h.row h.rows
  have hwritten : (c.write (cell c.mCursorY c.mCursorX) ch 0).Fits :=
    ⟨h.column, h.row, h.rows, writes_write h.writes (Nat.zero_le _) hcell.2 h.rows⟩
  unfold COLUMNS at hcolumn
  exact fits_forward hwritten hc (by change c.mCursorX < (c.mCursorX + 1) % 2 ^ 32; omega)

/-- A backspace that is let through behind column 0 erases no confirmed character. -/
theorem fits_backSpace (h : c.Fits) (hc : c.Anchored) (hne : c.mPosition ≠ c.mBeginChar)
    (hx : c.mCursorX ≠ 0) : c.backSpace.Fits ∧ (c.backSpace.move (-1)).Anchored := by
  obtain ⟨b, p, hb, hp, hle, hconfirmed⟩ := hc
  have hcolumn := h.column
  have hlt : b < p := by
    rcases Int.lt_or_eq_of_le hle with hlt | rfl
    · exact hlt
    · exact absurd (hp.trans hb.symm) hne
  have hback : (c.mCursorX + 2 ^ 32 - 1) % 2 ^ 32 = c.mCursorX - 1 := by
    unfold COLUMNS at hcolumn
    omega
  have hcell := cell_eq (y := c.mCursorY) (x := c.mCursorX - 1) (by omega) h.row h.rows
  unfold backSpace
  dsimp only
  rw [hback]
  refine ⟨⟨by change c.mCursorX - 1 < COLUMNS; omega, h.row, h.rows, ?_⟩, b, p + -1, hb, ?_,
    by omega, ?_⟩
  · refine writes_write h.writes ?_ hcell.2 h.rows
    rw [hcell.1]
    omega
  · exact congrArg (Option.map (· + -1)) hp
  · change c.confirmed = 0 ∨ (c.confirmed : ℤ) + (p + -1 - b) ≤ (c.mCursorX - 1 : ℕ)
    omega

/-- **One character** keeps the cursor in the rows. -/
theorem fits_put (h : c.Fits) (hc : c.Anchored) {ch : Int8} (currentChar : ℤ)
    (hgood : ch = CERASE → c.mPosition ≠ c.mBeginChar → c.mCursorX ≠ 0) :
    (c.put ch currentChar).Fits ∧ (c.put ch currentChar).Anchored := by
  have hmove : ∀ {c' : CRT} {d : ℤ}, c'.Fits → (c'.move d).Fits := fun h' =>
    ⟨h'.column, h'.row, h'.rows, h'.writes⟩
  unfold put
  split_ifs with hnl hkill herase hne htab
  · obtain ⟨hfits, hzero, -, -⟩ := fits_nextLine h.row h.rows h.writes
    exact ⟨⟨hfits.column, hfits.row, hfits.rows, hfits.writes⟩, currentChar, currentChar, rfl, rfl,
      Int.le_refl _, Or.inl hzero⟩
  · exact ⟨h, hc⟩
  · obtain ⟨hfits, hanchored⟩ := fits_backSpace h hc hne (hgood herase hne)
    exact ⟨hmove hfits, hanchored⟩
  · exact ⟨h, hc⟩
  · obtain ⟨hfits, hanchored⟩ := fits_tab h hc
    exact ⟨hmove hfits, hanchored⟩
  · obtain ⟨hfits, hanchored⟩ := fits_writeChar h hc ch
    exact ⟨hmove hfits, hanchored⟩

end CRT

/-! ### Runs -/

/-- What holds in every state: the pointers are set together. -/
structure Inv (s : State) : Prop where
  fits : s.crt.Fits
  pointers : s.crt.mPosition = none ∧ s.crt.mBeginChar = none ∧ s.crt.confirmed = 0 ∨
    s.crt.Anchored

namespace Inv

variable {s s' : State} {e : Event}

theorem boot : Inv boot :=
  ⟨⟨by decide, by decide, by decide, fun _ hw => absurd hw List.not_mem_nil⟩,
    Or.inl ⟨rfl, rfl, rfl⟩⟩

theorem anchored (h : Inv s) (hset : s.crt.mPosition ≠ none) : s.crt.Anchored :=
  h.pointers.resolve_left fun hnone => hset hnone.1

theorem start (h : Inv s) : Inv (Event.start.next s) := by
  refine ⟨⟨h.fits.column, h.fits.row, h.fits.rows, h.fits.writes⟩, Or.inr ?_⟩
  change (s.crt.start s.tOutq.mTail).Anchored
  unfold CRT.start
  dsimp only
  rcases h.pointers with ⟨hp, hb, hzero⟩ | ⟨b, p, hb, hp, hle, hconfirmed⟩
  · rw [hp, hb]
    exact ⟨s.tOutq.mTail, s.tOutq.mTail, rfl, rfl, Int.le_refl _, Or.inl hzero⟩
  · rw [hp, hb]
    exact ⟨b, p, rfl, rfl, hle, hconfirmed⟩

theorem turn (h : Inv s) (henabled : Event.turn.Enabled s) (hgood : Good s .turn) :
    Inv (Event.turn.next s) := by
  change Inv s.turn
  unfold State.turn
  dsimp only
  split
  next => exact ⟨h.fits, h.pointers⟩
  next =>
    obtain ⟨hfits, hanchored⟩ :=
      CRT.fits_put h.fits (h.anchored henabled.1) s.tOutq.getChar.2.mTail hgood
    exact ⟨hfits, Or.inr hanchored⟩

theorem confirm (h : Inv s) (hgood : Good s .confirm) : Inv (Event.confirm.next s) :=
  ⟨⟨h.fits.column, h.fits.row, h.fits.rows, h.fits.writes⟩,
    Or.inr ⟨s.tOutq.mTail, s.tOutq.mTail, rfl, hgood, Int.le_refl _, Or.inr (by
      change (s.crt.mCursorX : ℤ) + _ ≤ s.crt.mCursorX
      omega)⟩⟩

theorem trace (h : Inv s) (arg : BitVec 32) (hgood : Good s (.trace arg)) :
    Inv ((Event.trace arg).next s) :=
  ⟨⟨h.fits.column, hgood.1, hgood.2, h.fits.writes⟩, h.pointers⟩

/-- **A step.** -/
theorem step (h : Inv s) (hgood : Good s e) (hstep : Step s e s') : Inv s' := by
  obtain ⟨henabled, rfl⟩ := hstep
  cases e with
  | output ch => exact ⟨h.fits, h.pointers⟩
  | start => exact h.start
  | turn => exact h.turn henabled hgood
  | confirm => exact h.confirm hgood
  | trace arg => exact h.trace arg hgood

theorem safe (h : Inv s) : Safe s := ⟨h.fits.column, h.fits.row, h.fits.writes⟩

end Inv

/-- **The cursor and the writes stay in the rows, and nothing confirmed is erased**, in every run of
good steps. -/
theorem run_safe {s : State} (hrun : Runs Step Good boot s) : Safe s :=
  (hrun.invariant (fun _ _ _ h hgood hstep => h.step hgood hstep) Inv.boot).safe

/-! ### Single runs -/

/-- The events in order. -/
def play (es : List Event) : State := es.foldl (fun s e => e.next s) boot

theorem runs_play {ok : State → Event → Prop} {es : List Event}
    (h : Runs.Meets (fun s e => e.next s) (fun s e => e.Enabled s ∧ ok s e) es boot) :
    Runs Step ok boot (play es) :=
  (@Runs.of_meets _ _ Step _ _ (fun _ _ h => ⟨h.1, rfl⟩) _ _ h).mono fun _ _ h => h.2

/-- Two characters are written, and two typed and erased again. -/
def echoed : List Event :=
  [.output 97, .output 98, .start, .turn, .turn, .confirm, .output 99, .start, .turn,
    .output CERASE, .start, .turn, .output CERASE, .start, .turn]

theorem run_safe_echoed : Safe (play echoed) := run_safe (runs_play (by decide))

/-- A backspace is written behind one character, and one is typed. -/
def erasedTwice : List Event :=
  [.output 97, .output CERASE, .start, .turn, .turn, .confirm, .output CERASE, .start, .turn]

/-- The second one goes to the left of column 0. -/
theorem exists_unsafe : ∃ s, Runs Step (fun _ _ => True) boot s ∧ ¬ Safe s := by
  refine ⟨play erasedTwice, runs_play (by decide), fun h => ?_⟩
  have hcolumn : (play erasedTwice).crt.mCursorX = 2 ^ 32 - 1 := by decide
  have := h.column
  rw [hcolumn] at this
  exact absurd this (by decide)

end Console
end UnixV6pp
