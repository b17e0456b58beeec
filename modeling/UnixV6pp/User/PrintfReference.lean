import UnixV6pp.User.Sprintf

/-!
# What `printf` is asked for

The conversions of the C standard with the letters `c`, `s`, `d`, `i`, `u`, `x` and `o`. The
standard leaves `#` undefined with the letters other than `x` and `o`, `0` with `c` and `s`, and a
precision with `c`; a width and a precision are numbers an `int` holds.

## Main definitions

* `Spec`, `Piece` — conversions, and format strings made of text and conversions.
* `Spec.reference` — the text of the standard for a conversion.

## Main results

* `parseSpec_spec` — the parser reads a conversion as it is written.
-/

namespace UnixV6pp
namespace Printf

open Words Numerals

/-! ### Conversions -/

inductive Flag
  | space
  | zero
  | plus
  | minus
  | alt
deriving DecidableEq

def Flag.char : Flag → Char
  | space => ' '
  | zero => '0'
  | plus => '+'
  | minus => '-'
  | alt => '#'

inductive Letter
  | c
  | s
  | d
  | i
  | u
  | x
  | o
deriving DecidableEq

def Letter.char : Letter → Char
  | c => 'c'
  | s => 's'
  | d => 'd'
  | i => 'i'
  | u => 'u'
  | x => 'x'
  | o => 'o'

/-- A decimal numeral with one more digit. -/
def shift (v : ℕ) (d : Fin 10) : ℕ := v * 10 + d

/-- The number digits stand for. -/
def value (ds : List (Fin 10)) : ℕ := ds.foldl shift 0

/-- A conversion with a meaning. A zero in front of the width would be a flag. -/
structure Spec where
  flags : List Flag
  width : List (Fin 10)
  prec : Option (List (Fin 10))
  letter : Letter
  width_head : width.head? ≠ some 0
  width_lt : value width < 2 ^ 31
  prec_lt : ∀ ds ∈ prec, value ds < 2 ^ 31
  alt_letter : .alt ∈ flags → letter = .x ∨ letter = .o
  zero_letter : .zero ∈ flags → letter ≠ .c ∧ letter ≠ .s
  prec_letter : prec.isSome → letter ≠ .c

def digitChars (ds : List (Fin 10)) : List Char := ds.map fun d : Fin 10 => Nat.digitChar d

namespace Spec

variable (s : Spec)

/-- The conversion as it is written, behind the `%`. -/
def render : List Char :=
  s.flags.map Flag.char ++ digitChars s.width ++
    (s.prec.elim [] fun ds => '.' :: digitChars ds) ++ [s.letter.char]

/-- The least width; zero without one. -/
def minWidth : ℕ := value s.width

/-- The precision, which is zero for a `.` alone. -/
def precision : Option ℕ := s.prec.map value

def left : Bool := .minus ∈ s.flags

def showsign : Bool := .plus ∈ s.flags

def space : Bool := .space ∈ s.flags

def alt : Bool := .alt ∈ s.flags

/-- Zeros instead of blanks; `-` and a precision override the flag. -/
def zeroFill : Bool := .zero ∈ s.flags ∧ .minus ∉ s.flags ∧ s.precision = none

def signed : Bool := s.letter = .d ∨ s.letter = .i

def base : ℕ :=
  match s.letter with
  | .x => 16
  | .o => 8
  | _ => 10

/-- The absolute value of the argument. -/
def magnitude (arg : BitVec 32) : ℕ := if s.signed then arg.toInt.natAbs else arg.toNat

/-- The digits, as many as the precision asks for. -/
def minDigits (arg : BitVec 32) : List Char :=
  let num := Nat.toDigits s.base (s.magnitude arg)
  match s.precision with
  | none => num
  | some p =>
    if p = 0 ∧ s.magnitude arg = 0 then []
    else List.replicate (p - num.length) '0' ++ num

/-- `#` makes an octal numeral begin with a zero. -/
def digits (arg : BitVec 32) : List Char :=
  let ds := s.minDigits arg
  if s.alt ∧ s.letter = .o ∧ ds.head? ≠ some '0' then '0' :: ds else ds

/-- The sign, or the `0x` of a number other than zero. -/
def lead (arg : BitVec 32) : List Char :=
  if s.signed then
    if arg.toInt < 0 then ['-']
    else if s.showsign then ['+']
    else if s.space then [' ']
    else []
  else if s.alt ∧ s.letter = .x ∧ s.magnitude arg ≠ 0 then ['0', 'x']
  else []

/-- How many zeros the flag `0` puts between the sign and the digits. -/
def fill (arg : BitVec 32) : ℕ :=
  if s.zeroFill then s.minWidth - (s.lead arg ++ s.digits arg).length else 0

/-- The text of the standard, for an argument and the string that it points at. -/
def reference (arg : BitVec 32) (str : List Char) : List Char :=
  pad s.left s.minWidth <|
    match s.letter with
    | .c => [charOf arg]
    | .s => s.precision.elim str str.take
    | _ => s.lead arg ++ List.replicate (s.fill arg) '0' ++ s.digits arg

end Spec

/-- Literal text, character by character, and conversions. -/
inductive Piece
  | literal (ch : Char) (h : ch ≠ '%')
  | conversion (s : Spec)

def Piece.render : Piece → List Char
  | literal ch _ => [ch]
  | conversion s => '%' :: s.render

/-- The format string. -/
def render (pieces : List Piece) : List Char := pieces.flatMap Piece.render

/-- The text of a whole format, with the arguments from `offset` on. -/
def reference (args : Args) : ℕ → List Piece → List Char
  | _, [] => []
  | offset, .literal ch _ :: pieces => ch :: reference args offset pieces
  | offset, .conversion s :: pieces =>
    s.reference (args.va offset) (args.mem (args.va offset)) ++
      reference args (offset + 1) pieces

/-- The conversions with their arguments. -/
def conversions (args : Args) : ℕ → List Piece → List (Spec × BitVec 32)
  | _, [] => []
  | offset, .literal _ _ :: pieces => conversions args offset pieces
  | offset, .conversion s :: pieces =>
    (s, args.va offset) :: conversions args (offset + 1) pieces

/-! ### The parser on a conversion -/

/-- What the parser makes of the precision: nothing of a `.` alone. -/
def precOf : Option (List (Fin 10)) → ℤ
  | none => -1
  | some [] => -1
  | some ds => value ds

/-- What the parser makes of a conversion. -/
def Spec.info (s : Spec) : PrintInfo where
  prec := precOf s.prec
  width := if s.width = [] then -1 else s.minWidth
  spec := s.letter.char
  alt := s.alt
  space := s.space
  left := s.left
  showsign := s.showsign
  pad := if s.left then ' ' else if .zero ∈ s.flags then '0' else ' '

theorem isFlag_char (f : Flag) : isFlag f.char = true := by
  cases f <;> decide

theorem isDigit_digitChar (d : Fin 10) : isDigit (Nat.digitChar d) = true := by
  revert d
  decide

theorem digitValue_digitChar (d : Fin 10) : digitValue (Nat.digitChar d) = d := by
  revert d
  decide

/-- The flags in any order. -/
theorem parseFlags_flags (info : PrintInfo) (flags : List Flag) {ch : Char}
    (hch : isFlag ch = false) (rest : List Char) :
    parseFlags info (flags.map Flag.char ++ ch :: rest) =
      ({ info with
          space := info.space || .space ∈ flags
          showsign := info.showsign || .plus ∈ flags
          left := info.left || .minus ∈ flags
          alt := info.alt || .alt ∈ flags
          pad := if .zero ∈ flags then '0' else info.pad }, ch :: rest) := by
  induction flags generalizing info with
  | nil => simp [parseFlags, hch]
  | cons f flags ih =>
    have hstep : parseFlags info (f.char :: (flags.map Flag.char ++ ch :: rest)) =
        parseFlags (setFlag info f.char) (flags.map Flag.char ++ ch :: rest) := by
      rw [parseFlags, if_pos (isFlag_char f)]
    rw [List.map_cons, List.cons_append, hstep, ih]
    cases f <;> simp [setFlag, Flag.char]

theorem le_foldl (v : ℕ) (ds : List (Fin 10)) : v ≤ ds.foldl shift v := by
  induction ds generalizing v with
  | nil => exact Nat.le_refl v
  | cons d ds ih =>
    have := ih (shift v d)
    rw [List.foldl_cons]
    unfold shift at *
    omega

/-- The loop reads a number that an `unsigned int` holds. -/
theorem readLoop_digits {v : ℕ} {ds : List (Fin 10)}
    (hlt : ds.foldl shift v < 2 ^ 32) {ch : Char} (hch : isDigit ch = false)
    (rest : List Char) :
    readLoop v (digitChars ds ++ ch :: rest) =
      (ds.foldl shift v, ch :: rest) := by
  induction ds generalizing v with
  | nil => simp [digitChars, readLoop, hch]
  | cons d ds ih =>
    have hle := le_foldl (shift v d) ds
    rw [List.foldl_cons] at hlt
    have hmod : (v * 10 + d) % 2 ^ 32 = shift v d := Nat.mod_eq_of_lt (Nat.lt_of_le_of_lt hle hlt)
    have hstep : readLoop v (digitChars (d :: ds) ++ ch :: rest) =
        readLoop ((v * 10 + digitValue (Nat.digitChar d)) % 2 ^ 32)
          (digitChars ds ++ ch :: rest) := by
      rw [digitChars, List.map_cons, List.cons_append, readLoop, if_pos (isDigit_digitChar d)]
      rfl
    rw [hstep, digitValue_digitChar, hmod, ih hlt, List.foldl_cons]

theorem readInt_digits {ds : List (Fin 10)} (hlt : value ds < 2 ^ 31) {ch : Char}
    (hch : isDigit ch = false) (rest : List Char) :
    readInt (digitChars ds ++ ch :: rest) =
      (if ds = [] then -1 else (value ds : ℤ), ch :: rest) := by
  cases ds with
  | nil => simp [digitChars, readInt, hch]
  | cons d ds =>
    have hval : value (d :: ds) = ds.foldl shift (d : ℕ) := by
      simp [value, shift]
    have hrun : readLoop (digitValue (Nat.digitChar d)) (digitChars ds ++ ch :: rest) =
        (value (d :: ds), ch :: rest) := by
      rw [digitValue_digitChar, hval]
      exact readLoop_digits (by omega) hch rest
    have hint : readInt (digitChars (d :: ds) ++ ch :: rest) =
        (int32 (value (d :: ds)), ch :: rest) := by
      rw [digitChars, List.map_cons, List.cons_append, readInt, if_pos (isDigit_digitChar d)]
      exact congrArg (fun r : ℕ × List Char => (int32 r.1, r.2)) hrun
    rw [hint, int32_of_bounds (by omega) (by omega), if_neg (List.cons_ne_nil _ _)]

theorem isDigit_letter (l : Letter) : isDigit l.char = false := by
  cases l <;> decide

theorem isFlag_letter (l : Letter) : isFlag l.char = false := by
  cases l <;> decide

theorem parseType_letter (info : PrintInfo) (l : Letter) (rest : List Char) :
    parseType info (l.char :: rest) = (info, l.char :: rest) := by
  cases l <;> simp [parseType, Letter.char]

namespace Spec

variable (s : Spec)

/-- The conversion from the precision on. -/
def fromPrec (rest : List Char) : List Char :=
  (s.prec.elim [] fun ds => '.' :: digitChars ds) ++ s.letter.char :: rest

/-- The conversion from the width on. -/
def fromWidth (rest : List Char) : List Char := digitChars s.width ++ s.fromPrec rest

theorem render_append (rest : List Char) :
    s.render ++ rest = s.flags.map Flag.char ++ s.fromWidth rest := by
  simp [render, fromWidth, fromPrec, List.append_assoc]

theorem parsePrec_fromPrec (rest : List Char) :
    parsePrec (s.fromPrec rest) = (precOf s.prec, s.letter.char :: rest) := by
  unfold fromPrec
  rcases hp : s.prec with _ | ds
  · cases hl : s.letter <;> rfl
  · have hread := readInt_digits (s.prec_lt ds hp) (isDigit_letter s.letter) rest
    have hdot : parsePrec ('.' :: digitChars ds ++ s.letter.char :: rest) =
        readInt (digitChars ds ++ s.letter.char :: rest) := rfl
    rw [Option.elim_some, hdot, hread]
    cases ds <;> rfl

/-- Neither a flag nor a digit follows the width. -/
theorem fromPrec_head (rest : List Char) :
    ∃ ch tail, s.fromPrec rest = ch :: tail ∧ isDigit ch = false ∧ isFlag ch = false := by
  unfold fromPrec
  rcases s.prec with _ | ds
  · exact ⟨_, _, rfl, isDigit_letter s.letter, isFlag_letter s.letter⟩
  · exact ⟨_, _, rfl, rfl, rfl⟩

theorem isFlag_digitChar {d : Fin 10} (hd : d ≠ 0) : isFlag (Nat.digitChar d) = false := by
  revert d
  decide

theorem fromWidth_head (rest : List Char) :
    ∃ ch tail, s.fromWidth rest = ch :: tail ∧ isFlag ch = false := by
  have hhead := s.width_head
  unfold fromWidth
  rcases hw : s.width with _ | ⟨d, ds⟩
  · obtain ⟨ch, tail, heq, -, hflag⟩ := s.fromPrec_head rest
    exact ⟨ch, tail, heq, hflag⟩
  · have hd : d ≠ 0 := fun h => hhead (by rw [hw, h]; rfl)
    exact ⟨_, _, rfl, isFlag_digitChar hd⟩

/-- The parser reads a conversion as it is written. -/
theorem parseSpec_render (rest : List Char) :
    parseSpec (s.render ++ rest) = some (s.info, rest) := by
  obtain ⟨ch, tail, hwidth, hflag⟩ := s.fromWidth_head rest
  obtain ⟨ch', tail', hprec, hdigit, -⟩ := s.fromPrec_head rest
  have hflags := parseFlags_flags {} s.flags hflag tail
  rw [← hwidth] at hflags
  have hint := readInt_digits s.width_lt hdigit tail'
  rw [← hprec] at hint
  have hhead : parseHead (s.render ++ rest) =
      ({ s.info with spec := ' ' }, s.letter.char :: rest) := by
    rw [render_append, parseHead, hflags]
    simp only [fromWidth, hint, parsePrec_fromPrec, parseType_letter, info, minWidth, left, alt,
      space, showsign, Bool.false_or]
    -- `-` takes back the padding with zeros
    by_cases hm : Flag.minus ∈ s.flags <;> simp [hm]
  rw [parseSpec, hhead]
  rfl

end Spec

end Printf
end UnixV6pp
