import UnixV6pp.Dev.TTy
import Mathlib.Data.List.TakeWhile

/-!
# The delimiters in the raw queue

`t_delct` counts the delimiters that `TTyInput` has put behind the lines in the raw queue, apart
from the queue itself.  A queue that wraps around empties itself and leaves the count; a character
that is typed can be the delimiter; and `FlushTTy`, which an interrupt may call at any time, stops
at the first byte from 128 on.

Whether a byte of the queue is a delimiter that was appended, or one that was typed, cannot be seen
in the queue: a mark beside each place says so.

## Main definitions

* `TTy.flushTTy` — the function.
* `Marked`, `Action`, `Marked.next` — the terminal with the marks, and what happens to it.
* `Counted` — what `t_delct` should say.
* `Good` — the condition.

## Main results

* `counted_next` — one action.
* `counted_iff` — **the count is right in all states of a run** exactly if all its actions meet the
  condition.
* `exists_uncounted` — a delimiter that is typed.
-/

namespace UnixV6pp
namespace Tty
namespace Delimiters

/-! ### The functions -/

/-- `while ( GetChar() >= 0 );`, with a bound on the number of its turns. -/
def flushLoop : ℕ → TTyQueue → TTyQueue
  | 0, q => q
  | fuel + 1, q => if q.getChar.1 ≥ 0 then flushLoop fuel q.getChar.2 else q.getChar.2

/-- The loop has ended by then. -/
def flush (q : TTyQueue) : TTyQueue := flushLoop TTY_BUF_SIZE q

end Delimiters

namespace TTy

/-- The character that `TTyInput` puts into the raw queue. -/
def inputChar (t : TTy) (ch : Int8) : Int8 :=
  let ch := if ch = RETURN ∧ t.tFlags &&& CRMOD ≠ 0 then NEWLINE else ch
  if t.tFlags &&& LCASE ≠ 0 ∧ 65 ≤ ch ∧ ch ≤ 90 then ch + 32 else ch

/-- A delimiter follows it. -/
def Delimits (t : TTy) (ch : Int8) : Prop :=
  t.tFlags &&& RAW ≠ 0 ∨ t.inputChar ch = NEWLINE ∨ t.inputChar ch = CEOT

instance (t : TTy) (ch : Int8) : Decidable (t.Delimits ch) := by
  unfold Delimits; infer_instance

/-- `FlushTTy`, as far as the input is concerned. -/
def flushTTy (t : TTy) : TTy :=
  { t with tCanq := Delimiters.flush t.tCanq, tRawq := Delimiters.flush t.tRawq, tDelct := 0 }

end TTy

namespace Delimiters

/-- The terminal, and which places of the raw queue hold a delimiter that was appended. -/
structure Marked where
  s : State
  marks : ℕ → Bool

/-- The characters of a queue, with their marks. -/
def listed (q : TTyQueue) (marks : ℕ → Bool) : List (Int8 × Bool) :=
  ringList TTY_BUF_SIZE q.mHead q.mTail fun i => (q.mCharBuf i, marks i)

namespace Marked

/-- Those of the raw queue. -/
def entries (m : Marked) : List (Int8 × Bool) := listed m.s.tty.tRawq m.marks

/-- A key; the places that are written get new marks. -/
def ttyInput (m : Marked) (ch : Int8) : Marked where
  s := m.s.ttyInput ch
  marks :=
    let head := m.s.tty.tRawq.mHead
    let marks := Function.update m.marks head false
    if m.s.tty.Delimits ch then Function.update marks ((head + 1) % TTY_BUF_SIZE) true else marks

end Marked

/-- What happens to the terminal. -/
inductive Action
  /-- A key. -/
  | key (ch : Int8)
  /-- A call of `TTRead`; those who called it before may be asleep in `Canon`. -/
  | read (count : ℤ)
  /-- One of those who are asleep in `Canon` goes on. -/
  | wake (count : ℤ)
  /-- The read in progress goes on. -/
  | step
  /-- `FlushTTy`, in a keyboard interrupt. -/
  | flush

/-- Only one process at a time is between the test of `t_delct` and the end of `TTRead`. -/
def Action.Enabled (m : Marked) : Action → Prop
  | read _ | wake _ => m.s.stage = .idle ∨ m.s.stage = .wait
  | _ => True

instance (m : Marked) (a : Action) : Decidable (a.Enabled m) := by
  cases a <;> unfold Action.Enabled <;> infer_instance

def Marked.next (m : Marked) : Action → Marked
  | .key ch => m.ttyInput ch
  | .read count => { m with s := m.s.ttRead count }
  | .wake count => { m with s := { m.s with mCount := count, stage := .wait } }
  | .step => { m with s := m.s.advance }
  | .flush => { m with s := { m.s with tty := m.s.tty.flushTTy } }

/-- After `ConsoleDevice::Open`. -/
def start : Marked := ⟨opened, fun _ => false⟩

/-! ### What is expected -/

/-- `t_delct` is the number of delimiters that were appended and are still in the raw queue; and
when `Canon` is about to pass the test of it, there is a line. -/
structure Counted (m : Marked) : Prop where
  count : m.s.tty.tDelct = (m.entries.countP (·.2) : ℤ)
  nonneg : 0 ≤ m.s.tty.tDelct
  line : m.s.stage = .wait → m.s.tty.tDelct ≠ 0 → (DELIM, true) ∈ m.entries

/-- What `FlushTTy` leaves in a queue. -/
def unflushed (es : List (Int8 × Bool)) : List (Int8 × Bool) :=
  (es.dropWhile fun e => decide (0 ≤ e.1)).tail

/-- `Canon` is taking characters. -/
def Cooking : Stage → Prop
  | .cook _ => True
  | _ => False

instance (st : Stage) : Decidable (Cooking st) := by
  cases st <;> unfold Cooking <;> infer_instance

/-- A key finds room for itself and its delimiter, or there is no line to be lost; `Canon` does not
meet a delimiter that was typed; and `FlushTTy` does not leave a line. -/
def Good (m : Marked) : Action → Prop
  | .key ch =>
    if m.s.tty.Delimits ch then m.entries.length + 2 < TTY_BUF_SIZE ∨
      m.entries.length + 1 = TTY_BUF_SIZE ∧ m.s.tty.tDelct = 0
    else m.entries.length + 1 < TTY_BUF_SIZE ∨ m.s.tty.tDelct = 0
  | .step => Cooking m.s.stage → m.entries.head? ≠ some (DELIM, false)
  | .flush => ∀ e ∈ unflushed m.entries, e.2 = false
  | _ => True

instance (m : Marked) (a : Action) : Decidable (Good m a) := by
  cases a with
  | flush => exact List.decidableBAll _ _
  | _ => unfold Good; infer_instance

/-! ### A queue with its marks -/

section Listed

variable {q : TTyQueue} {marks : ℕ → Bool}

theorem listed_putChar (h : q.Ok) (ch : Int8) (b : Bool) :
    listed (q.putChar ch) (Function.update marks q.mHead b) =
      if (listed q marks).length + 1 < TTY_BUF_SIZE then listed q marks ++ [(ch, b)] else [] := by
  have hpair : (fun i => ((q.putChar ch).mCharBuf i, Function.update marks q.mHead b i)) =
      Function.update (fun i => (q.mCharBuf i, marks i)) q.mHead (ch, b) := by
    funext i
    by_cases hi : i = q.mHead
    · subst hi
      simp [TTyQueue.putChar]
    · simp [TTyQueue.putChar, Function.update_of_ne hi]
  unfold listed
  rw [hpair, length_ringList]
  change ringList TTY_BUF_SIZE ((q.mHead + 1) % TTY_BUF_SIZE) q.mTail _ = _
  split
  next hroom => exact ringList_put h.head_lt h.tail_lt hroom _ _
  next hfull =>
    have hlt : ringSize TTY_BUF_SIZE q.mHead q.mTail < TTY_BUF_SIZE := ringSize_lt (by decide)
    exact ringList_put_full h.head_lt h.tail_lt (by omega) _

theorem listed_getChar_cons (h : q.Ok) {e : Int8 × Bool} {es : List (Int8 × Bool)}
    (hq : listed q marks = e :: es) : q.getChar.1 = e.1 ∧ listed q.getChar.2 marks = es := by
  have hne : q.mHead ≠ q.mTail := by
    intro heq
    rw [listed, (ringList_eq_nil h.head_lt h.tail_lt _).mpr heq] at hq
    cases hq
  rw [listed, ringList_get h.head_lt h.tail_lt hne, List.cons.injEq] at hq
  rw [TTyQueue.getChar, if_neg hne]
  exact ⟨congrArg Prod.fst hq.1, hq.2⟩

theorem getChar_of_listed_nil (h : q.Ok) (hq : listed q marks = []) :
    q.getChar = (GET_ERROR, q) := by
  rw [TTyQueue.getChar, if_pos ((ringList_eq_nil h.head_lt h.tail_lt _).mp hq)]

theorem length_listed_lt : (listed q marks).length < TTY_BUF_SIZE := by
  rw [listed, length_ringList]
  exact ringSize_lt (by decide)

/-- The loop stops behind the first negative character. -/
theorem listed_flushLoop {fuel : ℕ} (h : q.Ok) (hfuel : (listed q marks).length < fuel) :
    (flushLoop fuel q).Ok ∧ listed (flushLoop fuel q) marks = unflushed (listed q marks) := by
  induction fuel generalizing q with
  | zero => omega
  | succ fuel ih =>
    rw [flushLoop]
    cases hq : listed q marks with
    | nil =>
      rw [getChar_of_listed_nil h hq, if_neg (show ¬GET_ERROR ≥ 0 by decide)]
      exact ⟨h, hq⟩
    | cons e es =>
      obtain ⟨hget, htail⟩ := listed_getChar_cons h hq
      rw [hq, List.length_cons] at hfuel
      rw [hget]
      unfold unflushed
      by_cases hneg : e.1 ≥ 0
      · rw [if_pos hneg, List.dropWhile_cons_of_pos (by simpa using hneg), ← htail]
        exact ih h.getChar (by rw [htail]; omega)
      · rw [if_neg hneg, List.dropWhile_cons_of_neg (by simpa using hneg), List.tail_cons]
        exact ⟨h.getChar, htail⟩

theorem listed_flush (h : q.Ok) :
    (flush q).Ok ∧ listed (flush q) marks = unflushed (listed q marks) :=
  listed_flushLoop h length_listed_lt

end Listed

/-! ### What every action keeps -/

/-- The marks are at delimiters. -/
structure Sound (m : Marked) : Prop where
  rawOk : m.s.tty.tRawq.Ok
  marks : ∀ i, m.marks i = true → m.s.tty.tRawq.mCharBuf i = DELIM

variable {m : Marked}

theorem Sound.start : Sound start := ⟨⟨by decide, by decide⟩, nofun⟩

theorem Sound.mem_entries (h : Sound m) {e : Int8 × Bool} (he : e ∈ m.entries)
    (hmark : e.2 = true) : e = (DELIM, true) := by
  obtain ⟨i, -, rfl⟩ := List.mem_map.mp he
  exact Prod.ext (h.marks _ hmark) hmark

/-- The other parts of `Counted` follow from the number. -/
theorem Sound.tDelct_iff (h : Sound m) :
    Counted m ↔ m.s.tty.tDelct = (m.entries.countP (·.2) : ℤ) := by
  constructor
  · exact fun hc => hc.count
  · intro hcount
    refine ⟨hcount, by omega, fun _ hne => ?_⟩
    have hpos : 0 < m.entries.countP (·.2) := by omega
    obtain ⟨e, he, hmark⟩ := List.countP_pos_iff.mp hpos
    exact h.mem_entries he hmark ▸ he

/-! ### A key -/

theorem ttyInput_eq (t : TTy) (ch : Int8) :
    t.ttyInput ch = if t.Delimits ch then { t with
        tRawq := (t.tRawq.putChar (t.inputChar ch)).putChar DELIM
        tDelct := t.tDelct + 1 }
      else { t with tRawq := t.tRawq.putChar (t.inputChar ch) } := rfl

theorem tRawq_ttyInput (t : TTy) (ch : Int8) :
    (t.ttyInput ch).tRawq = if t.Delimits ch then (t.tRawq.putChar (t.inputChar ch)).putChar DELIM
      else t.tRawq.putChar (t.inputChar ch) := by
  rw [ttyInput_eq]
  split <;> rfl

theorem tDelct_ttyInput (t : TTy) (ch : Int8) :
    (t.ttyInput ch).tDelct = if t.Delimits ch then t.tDelct + 1 else t.tDelct := by
  rw [ttyInput_eq]
  split <;> rfl

theorem entries_key (h : Sound m) (ch : Int8) :
    (m.next (.key ch)).entries =
      let es := if m.entries.length + 1 < TTY_BUF_SIZE then
        m.entries ++ [(m.s.tty.inputChar ch, false)] else []
      if m.s.tty.Delimits ch then
        if es.length + 1 < TTY_BUF_SIZE then es ++ [(DELIM, true)] else []
      else es := by
  change listed (m.s.tty.ttyInput ch).tRawq (m.ttyInput ch).marks = _
  rw [tRawq_ttyInput, Marked.ttyInput]
  dsimp only
  by_cases hd : m.s.tty.Delimits ch
  · rw [if_pos hd, if_pos hd, if_pos hd, Marked.entries, ← listed_putChar h.rawOk]
    exact listed_putChar (h.rawOk.putChar _) DELIM true
  · rw [if_neg hd, if_neg hd, if_neg hd]
    exact listed_putChar h.rawOk _ false

theorem Sound.key (h : Sound m) (ch : Int8) : Sound (m.next (.key ch)) := by
  have hput : ∀ i, Function.update m.marks m.s.tty.tRawq.mHead false i = true →
      (m.s.tty.tRawq.putChar (m.s.tty.inputChar ch)).mCharBuf i = DELIM := by
    intro i hi
    by_cases hhead : i = m.s.tty.tRawq.mHead
    · subst hhead
      simp at hi
    · rw [Function.update_of_ne hhead] at hi
      exact (Function.update_of_ne hhead ..).trans (h.marks i hi)
  constructor
  · change (m.s.tty.ttyInput ch).tRawq.Ok
    rw [tRawq_ttyInput]
    split
    · exact (h.rawOk.putChar _).putChar _
    · exact h.rawOk.putChar _
  · change ∀ i, (m.ttyInput ch).marks i = true → (m.s.tty.ttyInput ch).tRawq.mCharBuf i = DELIM
    rw [tRawq_ttyInput, Marked.ttyInput]
    dsimp only
    by_cases hd : m.s.tty.Delimits ch
    · rw [if_pos hd, if_pos hd]
      intro i hi
      by_cases hhead : i = (m.s.tty.tRawq.mHead + 1) % TTY_BUF_SIZE
      · subst hhead
        exact Function.update_self ..
      · rw [Function.update_of_ne hhead] at hi
        exact (Function.update_of_ne hhead ..).trans (hput i hi)
    · rw [if_neg hd, if_neg hd]
      exact hput

theorem counted_key (h : Sound m) (hc : Counted m) (ch : Int8) :
    Counted (m.next (.key ch)) ↔ Good m (.key ch) := by
  have hlt : m.entries.length < TTY_BUF_SIZE := length_listed_lt
  have hcount := hc.count
  rw [(h.key ch).tDelct_iff, entries_key h]
  change (m.s.tty.ttyInput ch).tDelct = _ ↔ _
  rw [tDelct_ttyInput, Good]
  dsimp only
  by_cases hd : m.s.tty.Delimits ch
  · rw [if_pos hd, if_pos hd, if_pos hd]
    by_cases hroom : m.entries.length + 1 < TTY_BUF_SIZE
    · rw [if_pos hroom, List.length_append, List.length_singleton]
      by_cases hroom' : m.entries.length + 1 + 1 < TTY_BUF_SIZE
      · simp [if_pos hroom', hcount]
        omega
      · -- the delimiter takes the last place
        rw [if_neg hroom', List.countP_nil]
        omega
    · -- the character takes the last place, and the delimiter the first
      rw [if_neg hroom]
      simp [TTY_BUF_SIZE] at hroom hlt ⊢
      omega
  · rw [if_neg hd, if_neg hd, if_neg hd]
    by_cases hroom : m.entries.length + 1 < TTY_BUF_SIZE
    · simp [hroom, hcount]
    · simp [hroom]

/-! ### `Canon` and `TTRead` -/

theorem tty_ttRead (s : State) (count : ℤ) : (s.ttRead count).tty = s.tty := by
  unfold State.ttRead
  split
  · rfl
  · split <;> rfl

/-- Outside of the loop that takes characters the raw queue and its count stay. -/
theorem raw_advance {s : State} (h : ¬Cooking s.stage) :
    s.advance.tty.tRawq = s.tty.tRawq ∧ s.advance.tty.tDelct = s.tty.tDelct := by
  unfold State.advance
  rcases hstage : s.stage with _ | _ | pChar | ⟨pChar, pEnd⟩ | _
  · exact ⟨rfl, rfl⟩
  · dsimp only
    unfold State.canonTest
    split
    · split <;> exact ⟨rfl, rfl⟩
    · exact ⟨rfl, rfl⟩
  · rw [hstage] at h
    exact absurd trivial h
  · dsimp only
    unfold State.canonStore
    split <;> exact ⟨rfl, rfl⟩
  · dsimp only
    unfold State.ttReadLoop State.passC
    split
    · dsimp only
      by_cases hcount : s.mCount > 0
      · simp [hcount]
      · simp [hcount]
    · exact ⟨rfl, rfl⟩

/-- In it one character is taken; a delimiter is counted, wherever it comes from. -/
theorem raw_canonGet (s : State) (pChar : ℕ) :
    (s.canonGet pChar).tty.tRawq = s.tty.tRawq.getChar.2 ∧
      (s.canonGet pChar).tty.tDelct =
        if s.tty.tRawq.getChar.1 = DELIM then s.tty.tDelct - 1 else s.tty.tDelct := by
  unfold State.canonGet State.canonPut
  dsimp only
  split_ifs with hneg hdelim <;> first
    | exact ⟨rfl, rfl⟩
    | (rw [hdelim] at hneg; exact absurd hneg (by decide))

theorem advance_cook {s : State} (h : Cooking s.stage) : ∃ pChar, s.advance = s.canonGet pChar := by
  unfold State.advance
  rcases hstage : s.stage with _ | _ | pChar | ⟨pChar, pEnd⟩ | _
  all_goals rw [hstage] at h
  case cook => exact ⟨pChar, rfl⟩
  all_goals exact h.elim

/-- What leaves the raw queue's places alone keeps the marks at delimiters. -/
theorem Sound.of_buf (h : Sound m) {s : State} (hok : s.tty.tRawq.Ok)
    (hbuf : s.tty.tRawq.mCharBuf = m.s.tty.tRawq.mCharBuf) : Sound ⟨s, m.marks⟩ where
  rawOk := hok
  marks i hi := (congrFun hbuf i).trans (h.marks i hi)

theorem mCharBuf_getChar (q : TTyQueue) : q.getChar.2.mCharBuf = q.mCharBuf := by
  unfold TTyQueue.getChar
  split <;> rfl

theorem mCharBuf_flushLoop (fuel : ℕ) (q : TTyQueue) :
    (flushLoop fuel q).mCharBuf = q.mCharBuf := by
  induction fuel generalizing q with
  | zero => rfl
  | succ fuel ih =>
    rw [flushLoop]
    split
    · rw [ih, mCharBuf_getChar]
    · exact mCharBuf_getChar q

/-- **One action**, whatever it is. -/
theorem Sound.next (h : Sound m) (a : Action) : Sound (m.next a) := by
  cases a with
  | key ch => exact h.key ch
  | read count =>
    have htty := tty_ttRead m.s count
    exact h.of_buf (htty ▸ h.rawOk) (by rw [htty])
  | wake count => exact h.of_buf h.rawOk rfl
  | step =>
    by_cases hcook : Cooking m.s.stage
    · obtain ⟨pChar, hadvance⟩ := advance_cook hcook
      have hraw := (raw_canonGet m.s pChar).1
      refine h.of_buf ?_ ?_
      · rw [hadvance, hraw]
        exact h.rawOk.getChar
      · rw [hadvance, hraw, mCharBuf_getChar]
    · have hraw := (raw_advance hcook).1
      exact h.of_buf (hraw ▸ h.rawOk) (by rw [hraw])
  | flush => exact h.of_buf (@listed_flush _ m.marks h.rawOk).1 (mCharBuf_flushLoop _ _)

/-- The raw queue and its count stay, so what is said of them does. -/
theorem counted_of_raw (h : Sound m) (hc : Counted m) {s : State}
    (hraw : s.tty.tRawq = m.s.tty.tRawq) (hdelct : s.tty.tDelct = m.s.tty.tDelct) :
    Counted ⟨s, m.marks⟩ := by
  have hsound : Sound ⟨s, m.marks⟩ := h.of_buf (hraw ▸ h.rawOk) (by rw [hraw])
  rw [hsound.tDelct_iff]
  change s.tty.tDelct = ((listed s.tty.tRawq m.marks).countP (·.2) : ℤ)
  rw [hraw, hdelct]
  exact hc.count

theorem counted_cook (h : Sound m) (hc : Counted m) (hcook : Cooking m.s.stage) :
    Counted (m.next .step) ↔ m.entries.head? ≠ some (DELIM, false) := by
  obtain ⟨pChar, hadvance⟩ := advance_cook hcook
  obtain ⟨hraw, hdelct⟩ := raw_canonGet m.s pChar
  have hcount := hc.count
  rw [(h.next .step).tDelct_iff]
  change m.s.advance.tty.tDelct = ((listed m.s.advance.tty.tRawq m.marks).countP (·.2) : ℤ) ↔ _
  rw [hadvance, hraw, hdelct]
  cases hq : m.entries with
  | nil =>
    rw [getChar_of_listed_nil h.rawOk hq, if_neg (show GET_ERROR ≠ DELIM by decide)]
    simp [hcount, ← Marked.entries.eq_1]
  | cons e es =>
    obtain ⟨hget, htail⟩ := listed_getChar_cons h.rawOk hq
    rw [hq, List.countP_cons] at hcount
    rw [hget, htail, List.head?_cons]
    rcases e with ⟨ch, mark⟩
    by_cases hdelim : ch = DELIM
    · subst hdelim
      cases mark with
      | true => simp [hcount]
      | false =>
        have hsame : m.s.tty.tDelct = (es.countP (·.2) : ℤ) := by simpa using hcount
        have hless : m.s.tty.tDelct - 1 ≠ (es.countP (·.2) : ℤ) := by omega
        simp [hless]
    · -- only delimiters have a mark
      have hmark : mark = false := by
        cases mark with
        | false => rfl
        | true =>
          have he := h.mem_entries (hq ▸ List.mem_cons_self) rfl
          exact absurd (congrArg Prod.fst he) hdelim
      simp [hcount, hmark, hdelim]

theorem counted_flush (h : Sound m) :
    Counted (m.next .flush) ↔ ∀ e ∈ unflushed m.entries, e.2 = false := by
  rw [(h.next .flush).tDelct_iff]
  change (0 : ℤ) = ((listed (flush m.s.tty.tRawq) m.marks).countP (·.2) : ℤ) ↔ _
  rw [(listed_flush h.rawOk).2]
  change (0 : ℤ) = ((unflushed m.entries).countP (·.2) : ℤ) ↔ _
  rw [eq_comm, Int.natCast_eq_zero, List.countP_eq_zero]
  simp

/-- **One action** keeps the count right exactly if it meets the condition. -/
theorem counted_next (h : Sound m) (hc : Counted m) (a : Action) :
    Counted (m.next a) ↔ Good m a := by
  cases a with
  | key ch => exact counted_key h hc ch
  | read count =>
    have htty := tty_ttRead m.s count
    exact iff_of_true (counted_of_raw h hc (by rw [htty]) (by rw [htty])) trivial
  | wake count => exact iff_of_true (counted_of_raw h hc rfl rfl) trivial
  | step =>
    by_cases hcook : Cooking m.s.stage
    · rw [counted_cook h hc hcook]
      exact ⟨fun hhead _ => hhead, fun hgood => hgood hcook⟩
    · have hraw := raw_advance hcook
      exact iff_of_true (counted_of_raw h hc hraw.1 hraw.2) fun hcook' => absurd hcook' hcook
  | flush => exact counted_flush h

theorem Counted.start : Counted start := by
  rw [Sound.start.tDelct_iff]
  rfl

/-- **The count is right**, never negative, and stands for a line, in all states that the actions
lead through, exactly if each of them meets the condition on the state before it. -/
theorem counted_iff (actions : List Action) :
    (∀ n, Counted ((actions.take n).foldl Marked.next start)) ↔
      Runs.Meets Marked.next Good actions start :=
  (@Runs.meets_iff _ _ Good Marked.next Sound Counted (fun _ a h => h.next a)
    (fun _ a h hc => counted_next h hc a) _ _ Sound.start Counted.start).symm

/-- A line that begins with the byte of the delimiter: `Canon` takes it for the end. -/
def typedDelim : List Action := [.key DELIM, .key 97, .key NEWLINE, .read 10, .step, .step]

/-- The line is still there, and is not counted any more. -/
theorem exists_uncounted : ∃ actions : List Action,
    Runs.Meets Marked.next (fun m a => a.Enabled m) actions start ∧
      ¬∀ n, Counted ((actions.take n).foldl Marked.next start) := by
  refine ⟨typedDelim, by decide, fun h => ?_⟩
  have hcount := (h 6).count
  revert hcount
  decide

end Delimiters
end Tty
end UnixV6pp
