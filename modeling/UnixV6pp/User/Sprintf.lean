import UnixV6pp.User.PrintParse
import UnixV6pp.Lib.Numerals
import Mathlib.Data.List.OfFn

/-!
# `_sprintf`

The arguments are the words on the stack behind the format, a string argument is what the memory
holds at the address up to a NUL, and the buffer is a function from offsets to characters. A
conversion prints a text from `bp` on and moves `bp` by the number it returns, which need not be
the length of that text.

## Main definitions

* `sprintf_char`, `sprintf_string`, `sprintf_interger` — the conversions.
* `_sprintf` — the whole function.

## Main results

* `spell_itoa` — the numeral of a number below 2^32.
* `sprintfLoop_step`, `Wrote.print` — what one step of the loop does.
* `_sprintf_ok_iff` — **the parser stays within the format string** exactly where no specification
  is cut off.
-/

namespace UnixV6pp
namespace Printf

open Words Numerals

/-! ### Numerals -/

/-- `ch + ( ch < 10 ? '0' : 'a' - 10 )`. -/
def digit (ch : ℕ) : Char := Char.ofNat (ch + if ch < 10 then '0'.toNat else 'a'.toNat - 10)

/-- The digits `_itoa` puts down, the lowest first; a number has at most 32 of them. -/
def itoaLoop (radix : ℕ) : ℕ → ℕ → List Char
  | 0, _ => []
  | fuel + 1, num =>
    if num = 0 then [] else digit (num % radix) :: itoaLoop radix fuel (num / radix)

/-- `_itoa`; without a radix it knows it returns no pointer. -/
def _itoa (value : ℕ) (neg_sign : Bool) (radix : ℕ) : Option (List Char) :=
  if radix = 0 ∨ radix > 16 then none
  else
    let sign := if neg_sign then ['-'] else []
    let digits := if value = 0 then ['0'] else (itoaLoop radix 32 value).reverse
    some (sign ++ digits)

/-- `itoa`; the negation of a `long` is right as an `unsigned long`. -/
def itoa (value : ℤ) (radix : ℕ) : Option (List Char) := _itoa value.natAbs (value < 0) radix

/-! ### The conversions -/

/-- A text put down at `bp`, the number added to `bp`, and the words of arguments used up. -/
structure Printed where
  text : List Char
  count : ℤ
  words : ℕ
deriving DecidableEq

def blanks (n : ℤ) : List Char := List.replicate n.toNat ' '

/-- A word read as a `char`. -/
def charOf (arg : BitVec 32) : Char := Char.ofNat (arg.setWidth 8).toNat

def sprintf_char (arg : BitVec 32) : Printed where
  text := [charOf arg]
  count := 1
  words := 1

def sprintf_string (pstr : List Char) (info : PrintInfo) : Printed :=
  let strl : ℤ := pstr.length
  let width := if info.width = -1 then strl else info.width
  let prec := if info.prec = -1 then strl else info.prec
  let width := if prec > width then prec else width
  let padding := width - (if strl > prec then prec else strl)
  let text := pstr.take (width - padding).toNat
  { text :=
      if info.left then text ++ blanks (width - text.length) else blanks padding ++ text
    count := width
    words := 1 }

/-- The number `sprintf_interger` gives to `itoa`. -/
def number (arg : BitVec 32) (info : PrintInfo) : ℤ :=
  if info.spec = 'i' ∨ info.spec = 'd' then
    if info.isChar then (arg.setWidth 8).toInt
    else if info.isShort then (arg.setWidth 16).toInt
    else arg.toInt
  else
    if info.isChar then (arg.setWidth 8).toNat
    else if info.isShort then (arg.setWidth 16).toNat
    -- the parameter of `itoa` is a signed `long`
    else arg.toInt

def radix (info : PrintInfo) : ℕ :=
  if info.spec = 'x' ∨ info.spec = 'X' then 16 else if info.spec = 'o' then 8 else 10

/-- The prefix in front of the numeral `num`. -/
def pre (info : PrintInfo) (num : List Char) : List Char :=
  let base :=
    if ¬info.alt then []
    else if info.spec = 'x' ∨ info.spec = 'X' then ['0', info.spec]
    else if info.spec = 'o' then ['0']
    else []
  let sign :=
    if info.showsign ∧ num.head? ≠ some '-' ∧ (info.spec = 'd' ∨ info.spec = 'i') then ['+']
    else []
  base ++ sign

def sprintf_interger (arg : BitVec 32) (info : PrintInfo) : Printed :=
  match itoa (number arg info) (radix info) with
  | none => { text := [], count := 0, words := 1 }
  | some num =>
    -- `strlen( bpre )` is asked at the end of the prefix
    let strl : ℤ := num.length
    let width := if info.width < strl then strl else info.width
    let text := pre info num ++ num
    { text :=
        if info.left then text ++ blanks (width - text.length)
        else blanks (width - strl) ++ text
      count := width
      words := 1 }

/-! ### The loop -/

/-- What the conversions read: the words behind the format, the strings in memory, and what
`sprintf_double` prints. -/
structure Args where
  va : ℕ → BitVec 32
  mem : BitVec 32 → List Char
  sprintf_double : PrintInfo → BitVec 32 → BitVec 32 → Printed

/-- The `switch` over the letter. -/
def convert (args : Args) (offset : ℕ) (info : PrintInfo) : Printed :=
  if info.spec = 'c' then sprintf_char (args.va offset)
  else if info.spec = 's' then sprintf_string (args.mem (args.va offset)) info
  else if info.spec ∈ ['d', 'i', 'x', 'X', 'o', 'u'] then sprintf_interger (args.va offset) info
  else if info.spec ∈ ['f', 'F', 'e', 'E', 'g', 'G'] then
    args.sprintf_double info (args.va offset) (args.va (offset + 1))
  else { text := [], count := 0, words := 0 }

/-- The buffer with `text` from `bp` on. -/
def write (buffer : ℤ → Char) (bp : ℤ) (text : List Char) : ℤ → Char :=
  fun i => if bp ≤ i ∧ i < bp + text.length then text.getD (i - bp).toNat '\x00' else buffer i

/-- The variables of `_sprintf`; `offset` counts words. -/
structure State where
  buffer : ℤ → Char
  bp : ℤ
  offset : ℕ

def State.print (s : State) (p : Printed) : State where
  buffer := write s.buffer s.bp p.text
  bp := s.bp + p.count
  offset := s.offset + p.words

/-- Literal text is copied. -/
def literal (text : List Char) : Printed where
  text := text
  count := text.length
  words := 0

inductive Fault
  /-- The parser goes on behind the NUL of the format. -/
  | pastEnd
  | outOfFuel
deriving DecidableEq

def sprintfLoop (args : Args) : ℕ → List Char → State → Except Fault State
  | 0, _, _ => .error .outOfFuel
  | fuel + 1, format, s =>
    let found := findSpec format
    let s := s.print (literal found.1)
    match found.2 with
    | [] => .ok s
    | _ :: rest =>
      match parseSpec rest with
      | none => .error .pastEnd
      | some (info, rest) => sprintfLoop args fuel rest (s.print (convert args s.offset info))

/-- `_sprintf`: the buffer afterwards and the number returned. -/
def _sprintf (args : Args) (buffer : ℤ → Char) (fmt : List Char) :
    Except Fault ((ℤ → Char) × ℤ) := do
  let s ← sprintfLoop args (fmt.length + 1) fmt ⟨buffer, 0, 0⟩
  pure (write s.buffer s.bp ['\x00'], s.bp)

/-! ### Numerals as they should be -/

theorem digit_eq {ch : ℕ} (h : ch < 16) : digit ch = Nat.digitChar ch := by
  revert ch
  decide

/-- Enough steps put down the whole numeral. -/
theorem itoaLoop_eq {radix : ℕ} (hr : 1 < radix) (hr16 : radix ≤ 16) {fuel num : ℕ}
    (hnum : num < 2 ^ fuel) (h0 : num ≠ 0) :
    (itoaLoop radix fuel num).reverse = Nat.toDigits radix num := by
  induction fuel generalizing num with
  | zero => omega
  | succ fuel ih =>
    have hlow : digit (num % radix) = Nat.digitChar (num % radix) :=
      digit_eq (Nat.lt_of_lt_of_le (Nat.mod_lt _ (by omega)) hr16)
    rw [itoaLoop, if_neg h0, List.reverse_cons, hlow]
    rcases Nat.lt_or_ge num radix with hlt | hge
    · rw [Nat.toDigits_of_lt_base hlt, Nat.div_eq_of_lt hlt, Nat.mod_eq_of_lt hlt]
      cases fuel <;> rfl
    · have hdiv : num / radix < 2 ^ fuel := by
        have hhalf : num / radix ≤ num / 2 := Nat.div_le_div_left hr (by omega)
        omega
      have hpos : num / radix ≠ 0 := by
        have := Nat.div_pos hge (by omega : 0 < radix)
        omega
      rw [Nat.toDigits_of_base_le hr hge, ih hdiv hpos]

/-- The numeral of a `long`, with its sign. -/
theorem itoa_eq {radix : ℕ} (hr : 1 < radix) (hr16 : radix ≤ 16) {value : ℤ}
    (hlow : -2 ^ 31 ≤ value) (hhigh : value < 2 ^ 31) :
    itoa value radix =
      some ((if value < 0 then ['-'] else []) ++ Nat.toDigits radix value.natAbs) := by
  have hdigits : (if value.natAbs = 0 then ['0'] else (itoaLoop radix 32 value.natAbs).reverse) =
      Nat.toDigits radix value.natAbs := by
    split
    next h0 => rw [h0, Nat.toDigits_zero]
    next h0 => exact itoaLoop_eq hr hr16 (by omega) h0
  rw [itoa, _itoa, if_neg (by omega)]
  simp only [decide_eq_true_eq, hdigits]

/-! ### The buffer -/

/-- The first `n` characters of the buffer. -/
def slice (buffer : ℤ → Char) (n : ℕ) : List Char := (List.range n).map fun i : ℕ => buffer i

@[simp] theorem length_slice (buffer : ℤ → Char) (n : ℕ) : (slice buffer n).length = n := by
  simp [slice]

/-- The first characters after a text is put down behind them. -/
theorem slice_write (buffer : ℤ → Char) {n k : ℕ} {text : List Char} (h : k ≤ text.length) :
    slice (write buffer n text) (n + k) = slice buffer n ++ text.take k := by
  apply List.ext_getElem
  · simp [h]
  · intro i h1 h2
    have hi : i < n + k := by simpa using h1
    rw [List.getElem_append]
    simp only [slice, List.getElem_map, List.getElem_range, List.length_map, List.length_range]
    split
    next hlt =>
      rw [write, if_neg (by omega)]
    next hge =>
      have hidx : ((i : ℤ) - n).toNat = i - n := by omega
      have hin : i - n < text.length := by omega
      rw [write, if_pos (by omega), hidx, List.getElem_take]
      simp [hin]

theorem write_append (buffer : ℤ → Char) (bp : ℤ) (l r : List Char) :
    write (write buffer bp l) (bp + l.length) r = write buffer bp (l ++ r) := by
  funext i
  unfold write
  simp only [List.length_append, List.getD_eq_getElem?_getD, List.getElem?_append]
  by_cases hr : bp + l.length ≤ i ∧ i < bp + l.length + r.length
  · have hidx : (i - bp).toNat - l.length = (i - (bp + l.length)).toNat := by omega
    rw [if_pos hr, if_pos (by omega), if_neg (by omega), hidx]
  · rw [if_neg hr]
    by_cases hl : bp ≤ i ∧ i < bp + l.length
    · rw [if_pos hl, if_pos (by omega), if_pos (by omega)]
    · rw [if_neg hl, if_neg (by omega)]

/-- What of a printed text stays: the rest is behind `bp`. -/
def Printed.shown (p : Printed) : List Char := p.text.take p.count.toNat

/-- The text goes at least as far as `bp`. -/
def Printed.Fits (p : Printed) : Prop := 0 ≤ p.count ∧ p.count ≤ p.text.length

/-- The text in front of `bp`. -/
def Wrote (s : State) (text : List Char) : Prop :=
  s.bp = text.length ∧ slice s.buffer text.length = text

theorem Wrote.print {s : State} {text : List Char} (hs : Wrote s text) {p : Printed}
    (hp : p.Fits) : Wrote (s.print p) (text ++ p.shown) := by
  rcases hp with ⟨h0, hle⟩
  have hlen : p.shown.length = p.count.toNat := by
    rw [Printed.shown, List.length_take]
    omega
  constructor
  · rw [List.length_append, hlen]
    simp only [State.print, hs.1]
    omega
  · rw [List.length_append, hlen]
    simp only [State.print, hs.1]
    rw [slice_write _ (by omega), hs.2]
    rfl

theorem shown_literal (text : List Char) : (literal text).shown = text := by
  simp [literal, Printed.shown]

theorem fits_literal (text : List Char) : (literal text).Fits :=
  ⟨Int.natCast_nonneg _, Int.le_refl _⟩

@[simp] theorem print_literal_nil (s : State) : s.print (literal []) = s := by
  have hwrite : write s.buffer s.bp [] = s.buffer := by
    funext i
    rw [write, if_neg (by simp)]
  simp [State.print, literal, hwrite]

theorem print_literal_cons (s : State) (ch : Char) (text : List Char) :
    (s.print (literal [ch])).print (literal text) = s.print (literal (ch :: text)) := by
  have hwrite : write (write s.buffer s.bp [ch]) (s.bp + 1) text =
      write s.buffer s.bp (ch :: text) :=
    write_append s.buffer s.bp [ch] text
  simp only [State.print, literal, List.length_cons, List.length_nil, Nat.add_zero]
  rw [show ((0 + 1 : ℕ) : ℤ) = 1 from rfl, hwrite]
  congr 1
  omega

/-! ### Steps of the loop -/

theorem sprintfLoop_nil (args : Args) (fuel : ℕ) (s : State) :
    sprintfLoop args (fuel + 1) [] s = .ok s := by
  simp [sprintfLoop, findSpec]

theorem sprintfLoop_literal (args : Args) (fuel : ℕ) {ch : Char} (hch : ch ≠ '%')
    (rest : List Char) (s : State) :
    sprintfLoop args (fuel + 1) (ch :: rest) s =
      sprintfLoop args (fuel + 1) rest (s.print (literal [ch])) := by
  simp only [sprintfLoop, findSpec, print_literal_cons]
  simp [hch]

theorem sprintfLoop_spec (args : Args) (fuel : ℕ) (rest : List Char) (s : State) :
    sprintfLoop args (fuel + 1) ('%' :: rest) s =
      match parseSpec rest with
      | none => .error .pastEnd
      | some (info, rest) => sprintfLoop args fuel rest (s.print (convert args s.offset info)) := by
  simp [sprintfLoop, findSpec]

/-! ### The end of the format string -/

theorem complete_literal {ch : Char} (hch : ch ≠ '%') (rest : List Char) :
    Complete (ch :: rest) ↔ Complete rest := by
  simp [Complete, Place.run, Place.next, hch]

theorem complete_spec (rest : List Char) :
    Complete ('%' :: rest) ↔
      ∃ info rest', parseSpec rest = some (info, rest') ∧ Complete rest' :=
  parseSpec_run rest

/-- The loop ends at the NUL, or goes on behind it if a specification is cut off there. -/
theorem sprintfLoop_end (args : Args) (format : List Char) {fuel : ℕ}
    (hfuel : format.length < fuel) (s : State) :
    (Complete format → ∃ s', sprintfLoop args fuel format s = .ok s') ∧
      (¬Complete format → sprintfLoop args fuel format s = .error .pastEnd) := by
  -- on the length: literal text takes one character, a specification several
  induction hn : format.length using Nat.strongRecOn generalizing format fuel s with
  | ind n ih =>
    obtain ⟨fuel, rfl⟩ : ∃ k, fuel = k + 1 := ⟨fuel - 1, by omega⟩
    cases format with
    | nil => exact ⟨fun _ => ⟨s, sprintfLoop_nil args fuel s⟩, fun h => absurd rfl h⟩
    | cons ch rest =>
      rw [List.length_cons] at hfuel hn
      by_cases hch : ch = '%'
      · subst hch
        rw [sprintfLoop_spec, complete_spec]
        cases hp : parseSpec rest with
        | none =>
          refine ⟨?_, fun _ => rfl⟩
          rintro ⟨_, _, h, _⟩
          cases h
        | some p =>
          rcases p with ⟨info, rest'⟩
          have hlt := parseSpec_lt hp
          have hfuel' : rest'.length < fuel := by omega
          have hrec := ih rest'.length (by omega) rest' hfuel'
            (s.print (convert args s.offset info)) rfl
          constructor
          · rintro ⟨_, _, h, hc⟩
            cases h
            exact hrec.1 hc
          · intro hc
            exact hrec.2 fun h => hc ⟨info, rest', rfl, h⟩
      · rw [sprintfLoop_literal args fuel hch, complete_literal hch]
        exact ih rest.length (by omega) rest (by omega) _ rfl

/-- The parser stays within the format string where no specification is cut off. -/
theorem _sprintf_ok_iff (args : Args) (buffer : ℤ → Char) (format : List Char) :
    (∃ r, _sprintf args buffer format = .ok r) ↔ Complete format := by
  have hend := sprintfLoop_end args format (Nat.lt_succ_self _) ⟨buffer, 0, 0⟩
  by_cases hc : Complete format
  · obtain ⟨s, hs⟩ := hend.1 hc
    refine iff_of_true ⟨(write s.buffer s.bp ['\x00'], s.bp), ?_⟩ hc
    rw [_sprintf, hs]
    rfl
  · refine iff_of_false ?_ hc
    rw [_sprintf, hend.2 hc]
    rintro ⟨r, hr⟩
    cases hr

theorem _sprintf_pastEnd_iff (args : Args) (buffer : ℤ → Char) (format : List Char) :
    _sprintf args buffer format = .error .pastEnd ↔ ¬Complete format := by
  have hend := sprintfLoop_end args format (Nat.lt_succ_self _) ⟨buffer, 0, 0⟩
  by_cases hc : Complete format
  · obtain ⟨s, hs⟩ := hend.1 hc
    refine iff_of_false ?_ (not_not_intro hc)
    rw [_sprintf, hs]
    intro h
    cases h
  · refine iff_of_true ?_ hc
    rw [_sprintf, hend.2 hc]
    rfl

end Printf
end UnixV6pp
