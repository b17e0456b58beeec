import UnixV6pp.Lib.Words

/-!
# The format parser of `printf`

A format string is the list of its characters up to the terminating NUL, and a pointer into it is
the rest behind the pointer; past the NUL there is nothing to read.

## Main definitions

* `PrintInfo` — a conversion specification.
* `findSpec`, `parseSpec` — the functions of the parser.
* `specs` — all specifications of a format string.
-/

namespace UnixV6pp
namespace Printf

open Words

/-- `struct print_info`. -/
structure PrintInfo where
  prec : ℤ := -1
  width : ℤ := -1
  spec : Char := ' '
  isLongDouble : Bool := false
  isShort : Bool := false
  isLong : Bool := false
  alt : Bool := false
  space : Bool := false
  left : Bool := false
  showsign : Bool := false
  isChar : Bool := false
  pad : Char := ' '
deriving DecidableEq

def isDigit (ch : Char) : Bool := '0' ≤ ch ∧ ch ≤ '9'

/-- `*p - '0'`. -/
def digitValue (ch : Char) : ℕ := ch.toNat - '0'.toNat

/-- The loop of `read_int`; the value is an `unsigned int`. -/
def readLoop : ℕ → List Char → ℕ × List Char
  | rval, [] => (rval, [])
  | rval, ch :: rest =>
    if isDigit ch then readLoop ((rval * 10 + digitValue ch) % 2 ^ 32) rest else (rval, ch :: rest)

/-- `read_int`, where a digit comes next; the result goes to an `int`, which is -1 without one. -/
def readInt (format : List Char) : ℤ × List Char :=
  match format with
  | [] => (-1, format)
  | ch :: rest =>
    if isDigit ch then
      let r := readLoop (digitValue ch) rest
      (int32 r.1, r.2)
    else (-1, format)

def isFlag (ch : Char) : Bool := ch = ' ' ∨ ch = '0' ∨ ch = '+' ∨ ch = '-' ∨ ch = '#'

/-- The `switch` over a flag. -/
def setFlag (info : PrintInfo) (ch : Char) : PrintInfo :=
  match ch with
  | ' ' => { info with space := true }
  | '0' => { info with pad := '0' }
  | '+' => { info with showsign := true }
  | '-' => { info with left := true }
  | '#' => { info with alt := true }
  | _ => info

/-- The loop over the flags. -/
def parseFlags : PrintInfo → List Char → PrintInfo × List Char
  | info, [] => (info, [])
  | info, ch :: rest =>
    if isFlag ch then parseFlags (setFlag info ch) rest else (info, ch :: rest)

/-- The precision; a `.` without digits leaves -1. -/
def parsePrec (format : List Char) : ℤ × List Char :=
  match format with
  | '.' :: rest => readInt rest
  | _ => (-1, format)

/-- `ll`, `l`, `hh` and `h`. -/
def parseType (info : PrintInfo) (format : List Char) : PrintInfo × List Char :=
  match format with
  | 'l' :: 'l' :: rest => ({ info with isLongDouble := true }, rest)
  | 'l' :: rest => ({ info with isLong := true }, rest)
  | 'h' :: 'h' :: rest => ({ info with isChar := true }, rest)
  | 'h' :: rest => ({ info with isShort := true }, rest)
  | _ => (info, format)

/-- `parse_spec` from behind the `%` up to the letter. -/
def parseHead (format : List Char) : PrintInfo × List Char :=
  let flags := parseFlags {} format
  let info := if flags.1.left then { flags.1 with pad := ' ' } else flags.1
  let width := readInt flags.2
  let prec := parsePrec width.2
  parseType { info with width := width.1, prec := prec.1 } prec.2

/-- `parse_spec`; without a letter it takes the NUL for one and steps past it. -/
def parseSpec (format : List Char) : Option (PrintInfo × List Char) :=
  match parseHead format with
  | (_, []) => none
  | (info, ch :: rest) => some ({ info with spec := ch }, rest)

/-- `find_spec`: the text up to the next `%`, and the rest from there on. -/
def findSpec (format : List Char) : List Char × List Char :=
  (format.takeWhile (· ≠ '%'), format.dropWhile (· ≠ '%'))

theorem parseFlags_le (info : PrintInfo) (format : List Char) :
    (parseFlags info format).2.length ≤ format.length := by
  induction format generalizing info with
  | nil => exact Nat.le_refl 0
  | cons ch rest ih =>
    unfold parseFlags
    split
    · exact Nat.le_succ_of_le (ih _)
    · exact Nat.le_refl _

theorem readLoop_le (rval : ℕ) (format : List Char) :
    (readLoop rval format).2.length ≤ format.length := by
  induction format generalizing rval with
  | nil => exact Nat.le_refl 0
  | cons ch rest ih =>
    unfold readLoop
    split
    · exact Nat.le_succ_of_le (ih _)
    · exact Nat.le_refl _

theorem readInt_le (format : List Char) : (readInt format).2.length ≤ format.length := by
  unfold readInt
  split
  · exact Nat.le_refl _
  · split
    · exact Nat.le_succ_of_le (readLoop_le _ _)
    · exact Nat.le_refl _

theorem parsePrec_le (format : List Char) : (parsePrec format).2.length ≤ format.length := by
  unfold parsePrec
  split
  · exact Nat.le_succ_of_le (readInt_le _)
  · exact Nat.le_refl _

theorem parseType_le (info : PrintInfo) (format : List Char) :
    (parseType info format).2.length ≤ format.length := by
  unfold parseType
  split <;> simp only [List.length_cons] <;> omega

theorem parseHead_le (format : List Char) : (parseHead format).2.length ≤ format.length :=
  calc (parseHead format).2.length
    _ ≤ (parsePrec (readInt (parseFlags {} format).2).2).2.length := parseType_le _ _
    _ ≤ (readInt (parseFlags {} format).2).2.length := parsePrec_le _
    _ ≤ (parseFlags {} format).2.length := readInt_le _
    _ ≤ format.length := parseFlags_le _ _

/-- A specification takes up at least its letter. -/
theorem parseSpec_lt {format rest : List Char} {info : PrintInfo}
    (h : parseSpec format = some (info, rest)) : rest.length < format.length := by
  have hle := parseHead_le format
  unfold parseSpec at h
  split at h
  · cases h
  next ch rest' he =>
    rw [he, List.length_cons] at hle
    cases h
    omega

/-! ### Where a specification is cut off

One scan over the characters tells where in a specification the format string ends. -/

/-- What the characters so far leave open. -/
inductive Place
  | text
  | flags
  | width
  | prec
  | oneL
  | oneH
  | letter
deriving DecidableEq

/-- What comes behind the precision. -/
def Place.afterPrec (ch : Char) : Place :=
  if ch = 'l' then .oneL else if ch = 'h' then .oneH else .text

def Place.afterWidth (ch : Char) : Place := if ch = '.' then .prec else afterPrec ch

def Place.next : Place → Char → Place
  | text, ch => if ch = '%' then flags else text
  | flags, ch => if isFlag ch then flags else if isDigit ch then width else afterWidth ch
  | width, ch => if isDigit ch then width else afterWidth ch
  | prec, ch => if isDigit ch then prec else afterPrec ch
  | oneL, ch => if ch = 'l' then letter else text
  | oneH, ch => if ch = 'h' then letter else text
  | letter, _ => text

def Place.run : Place → List Char → Place := List.foldl Place.next

/-- No specification is cut off at the end of the format string. -/
def Complete (format : List Char) : Prop := Place.text.run format = .text

instance (format : List Char) : Decidable (Complete format) :=
  inferInstanceAs (Decidable (_ = _))

/-- The scan ends in text again, where the next character leads to `next`. -/
def After (next : Char → Place) : List Char → Prop
  | [] => False
  | ch :: rest => (next ch).run rest = .text

theorem run_iff_after {q : Place} (hq : q ≠ .text) (format : List Char) :
    q.run format = .text ↔ After q.next format := by
  cases format with
  | nil => exact iff_of_false hq (fun h => h)
  | cons ch rest => exact Iff.rfl

theorem parseFlags_run (info : PrintInfo) (format : List Char) :
    Place.flags.run format = .text ↔
      After (fun ch => if isDigit ch then .width else .afterWidth ch)
        (parseFlags info format).2 := by
  induction format generalizing info with
  | nil => exact iff_of_false nofun (fun h => h)
  | cons ch rest ih =>
    have hrun : Place.flags.run (ch :: rest) = (Place.flags.next ch).run rest := rfl
    rw [hrun, Place.next, parseFlags]
    by_cases hf : isFlag ch = true
    · rw [if_pos hf, if_pos hf]
      exact ih _
    · rw [if_neg hf, if_neg hf]
      exact Iff.rfl

/-- Digits are read on both sides up to the first other character. -/
theorem readLoop_run {q : Place} {next : Char → Place} (hq : q ≠ .text)
    (hnext : ∀ ch, q.next ch = if isDigit ch then q else next ch)
    (rval : ℕ) (format : List Char) :
    q.run format = .text ↔ After next (readLoop rval format).2 := by
  induction format generalizing rval with
  | nil => exact iff_of_false hq (fun h => h)
  | cons ch rest ih =>
    have hrun : q.run (ch :: rest) = (q.next ch).run rest := rfl
    rw [hrun, hnext, readLoop]
    by_cases hd : isDigit ch = true
    · rw [if_pos hd, if_pos hd]
      exact ih _
    · rw [if_neg hd, if_neg hd]
      exact Iff.rfl

theorem readInt_run {q : Place} {next : Char → Place} (hq : q ≠ .text)
    (hnext : ∀ ch, q.next ch = if isDigit ch then q else next ch) (format : List Char) :
    After (fun ch => if isDigit ch then q else next ch) format ↔
      After next (readInt format).2 := by
  cases format with
  | nil => exact Iff.rfl
  | cons ch rest =>
    unfold readInt After
    by_cases hd : isDigit ch = true
    · simp only [hd, if_true]
      exact readLoop_run hq hnext _ rest
    · simp [hd]

theorem parsePrec_run (format : List Char) :
    After Place.afterWidth format ↔ After Place.afterPrec (parsePrec format).2 := by
  unfold parsePrec
  split
  next rest =>
    have hrun : After Place.afterWidth ('.' :: rest) ↔ Place.prec.run rest = .text := Iff.rfl
    have hq : Place.prec ≠ .text := nofun
    rw [hrun, run_iff_after hq]
    exact readInt_run hq (fun _ => rfl) rest
  next hdot =>
    cases format with
    | nil => exact Iff.rfl
    | cons ch rest =>
      have hne : ch ≠ '.' := fun h => hdot rest (by rw [h])
      simp only [After, Place.afterWidth, if_neg hne]

theorem parseType_run (info : PrintInfo) (format : List Char) :
    After Place.afterPrec format ↔ After (fun _ => .text) (parseType info format).2 := by
  unfold parseType
  have hletter : Place.letter ≠ .text := nofun
  split
  · exact run_iff_after hletter _
  next rest hll =>
    -- one `l`; the next character is the letter
    cases rest with
    | nil => exact iff_of_false nofun (fun h => h)
    | cons ch rest =>
      have hne : ch ≠ 'l' := fun h => hll rest (by rw [h])
      have hrun : After Place.afterPrec ('l' :: ch :: rest) ↔
          (Place.oneL.next ch).run rest = .text := Iff.rfl
      rw [hrun, Place.next, if_neg hne, After]
  · exact run_iff_after hletter _
  next rest hhh =>
    cases rest with
    | nil => exact iff_of_false nofun (fun h => h)
    | cons ch rest =>
      have hne : ch ≠ 'h' := fun h => hhh rest (by rw [h])
      have hrun : After Place.afterPrec ('h' :: ch :: rest) ↔
          (Place.oneH.next ch).run rest = .text := Iff.rfl
      rw [hrun, Place.next, if_neg hne, After]
  next hll hl hhh hh =>
    cases format with
    | nil => exact Iff.rfl
    | cons ch rest =>
      have hl' : ch ≠ 'l' := fun h => hl rest (by rw [h])
      have hh' : ch ≠ 'h' := fun h => hh rest (by rw [h])
      simp only [After, Place.afterPrec, if_neg hl', if_neg hh']

/-- The parser finds a letter where the scan is in text again behind it. -/
theorem parseSpec_run (format : List Char) :
    Place.flags.run format = .text ↔
      ∃ info rest, parseSpec format = some (info, rest) ∧ Complete rest := by
  have hwidth : Place.width ≠ .text := nofun
  have hhead : Place.flags.run format = .text ↔ After (fun _ => .text) (parseHead format).2 :=
    calc Place.flags.run format = .text
      _ ↔ After _ (parseFlags {} format).2 := parseFlags_run {} format
      _ ↔ After _ (readInt (parseFlags {} format).2).2 := readInt_run hwidth (fun _ => rfl) _
      _ ↔ After _ (parsePrec (readInt (parseFlags {} format).2).2).2 := parsePrec_run _
      _ ↔ After _ (parseHead format).2 := parseType_run _ _
  rw [hhead, parseSpec]
  split
  next he =>
    rw [he]
    constructor
    · intro h
      cases h
    · rintro ⟨_, _, h, _⟩
      cases h
  next info ch rest he =>
    rw [he]
    constructor
    · intro h
      exact ⟨_, rest, rfl, h⟩
    · rintro ⟨_, _, h, hc⟩
      cases h
      exact hc

/-- Text up to a `%` leaves the scan in text. -/
theorem findSpec_run (format : List Char) :
    Complete format ↔ Complete (findSpec format).2 := by
  unfold findSpec
  induction format with
  | nil => exact Iff.rfl
  | cons ch rest ih =>
    by_cases h : ch = '%'
    · simp [h]
    · have hrun : Complete (ch :: rest) ↔ Complete rest := by
        simp [Complete, Place.run, Place.next, h]
      rw [hrun, ih]
      simp [h]

end Printf
end UnixV6pp
