import UnixV6pp.User.Sprintf
import UnixV6pp.Lib.Reversal

/-!
# `itoa` and `uitoa`

`Sprintf` takes the text of a number as a value. Here the memory is a function from addresses to
characters, the digit loop writes into it, the lowest digit first, and the digits are reversed
where they stand. The digit loop has as many turns as `fuel` allows; a call that returns with some
`fuel` ends.

## Main definitions

* `digitLoop`, `_itoa`, `itoa`, `uitoa` — the functions.
* `Spells` — what a memory holds where a number has been written as it should be.

## Main results

* `digitLoop_eq` — the digit loop with a radix above 1 ends and puts down `itoaLoop`'s digits.
* `digitLoop_one` — the quotient by 1 is the number itself: the loop goes on for ever.
* `itoa_iff` — **both functions write every number** exactly where the radix is not 1 or the
  number is 0.
-/

namespace UnixV6pp
namespace Stdlib

open Printf Numerals Reversal

/-! ### The functions -/

/-- `while ( num ) { … }`; the number left, and `buffer`. Without `fuel` there is no end. -/
def digitLoop (radix : ℕ) : ℕ → ℕ → ℕ → (ℕ → Char) → Option (ℕ × (ℕ → Char))
  | 0, _, _, _ => none
  | fuel + 1, num, buffer, mem =>
    if num = 0 then some (buffer, mem)
    else
      digitLoop radix fuel (num / radix) (buffer + 1)
        (Function.update mem buffer (digit (num % radix)))

/-- `!buffer || radix <= 0 || radix > 16`. -/
def Refused (buffer : ℕ) (radix : ℤ) : Prop := buffer = 0 ∨ radix ≤ 0 ∨ radix > 16

instance (buffer : ℕ) (radix : ℤ) : Decidable (Refused buffer radix) := by
  unfold Refused
  infer_instance

/-- The place of the first digit, behind the sign if there is one. -/
def bufferStart (neg_sign : Bool) (buffer : ℕ) : ℕ := if neg_sign then buffer + 1 else buffer

/-- The memory before the digit loop: the sign, and the digit of zero. -/
def prepared (mem : ℕ → Char) (neg_sign : Bool) (buffer : ℕ) : ℕ → Char :=
  let mem := if neg_sign then Function.update mem buffer '-' else mem
  Function.update mem (bufferStart neg_sign buffer) '0'

/-- `_itoa`: the pointer it returns, and the memory. -/
def _itoa (fuel : ℕ) (mem : ℕ → Char) (value : ℕ) (neg_sign : Bool) (buffer : ℕ) (radix : ℤ) :
    Option (ℕ × (ℕ → Char)) :=
  if Refused buffer radix then some (0, mem)
  else
    match digitLoop radix.toNat fuel value (bufferStart neg_sign buffer)
        (prepared mem neg_sign buffer) with
    | none => none
    | some (last, mem) =>
      -- `if ( value ) *buffer = 0; else *++buffer = 0;`
      let last := if value = 0 then last + 1 else last
      some (buffer, reverse (Function.update mem last '\x00') (bufferStart neg_sign buffer)
        (last - 1))

/-- `itoa`; the negation of the lowest `long` is that number itself. -/
def itoa (fuel : ℕ) (mem : ℕ → Char) (value : BitVec 32) (buffer : ℕ) (radix : ℤ) :
    Option (ℕ × (ℕ → Char)) :=
  let s : Bool := value.toInt < 0
  let value := if s then -value else value
  _itoa fuel mem value.toNat s buffer radix

/-- `uitoa`. -/
def uitoa (fuel : ℕ) (mem : ℕ → Char) (value : BitVec 32) (buffer : ℕ) (radix : ℤ) :
    Option (ℕ × (ℕ → Char)) :=
  _itoa fuel mem value.toNat false buffer radix

/-! ### What should be written -/

/-- The number a digit stands for; `radix` and above for a character that is no digit. -/
def valueOf (ch : Char) : ℕ :=
  if '0' ≤ ch ∧ ch ≤ '9' then ch.toNat - '0'.toNat
  else if 'a' ≤ ch ∧ ch ≤ 'f' then ch.toNat - 'a'.toNat + 10
  else 16

/-- The number that digits stand for, the highest first. -/
def numeral (radix : ℕ) (digits : List Char) : ℕ :=
  digits.foldl (fun n ch => n * radix + valueOf ch) 0

/-- The number that a text with an optional sign stands for. -/
def readBack (radix : ℕ) : List Char → ℤ
  | '-' :: digits => -numeral radix digits
  | digits => numeral radix digits

/-- The sign of a numeral. -/
def sign (value : ℤ) : List Char := if value < 0 then ['-'] else []

/-- `mem'` holds the text of `value` from `buffer` on: a sign for a negative number only, digits of
the radix without leading zeros, and NUL; the rest is as in `mem`. -/
structure Spells (mem mem' : ℕ → Char) (buffer radix : ℕ) (value : ℤ) (digits : List Char) :
    Prop where
  written : cells mem' buffer ((sign value ++ digits).length + 1) =
    sign value ++ digits ++ ['\x00']
  isDigit : ∀ ch ∈ digits, valueOf ch < radix
  zero : value = 0 → digits = ['0']
  noLeadingZero : value ≠ 0 → digits ≠ [] ∧ digits.head? ≠ some '0'
  reads : readBack radix (sign value ++ digits) = value
  frame : ∀ a, a < buffer ∨ buffer + (sign value ++ digits).length < a → mem' a = mem a

/-! ### Numerals read back -/

theorem valueOf_digitChar {d : ℕ} (h : d < 16) : valueOf (Nat.digitChar d) = d := by
  revert d
  decide

theorem numeral_append (radix : ℕ) (digits : List Char) (ch : Char) :
    numeral radix (digits ++ [ch]) = numeral radix digits * radix + valueOf ch := by
  simp [numeral]

/-- A numeral read back. -/
theorem numeral_toDigits {radix : ℕ} (hr : 1 < radix) (hr16 : radix ≤ 16) (n : ℕ) :
    numeral radix (Nat.toDigits radix n) = n := by
  induction n using Nat.strongRecOn with
  | ind n ih =>
    rcases Nat.lt_or_ge n radix with hlt | hge
    · rw [Nat.toDigits_of_lt_base hlt]
      simp [numeral, valueOf_digitChar (by omega : n < 16)]
    · have hlow : n % radix < 16 := Nat.lt_of_lt_of_le (Nat.mod_lt _ (by omega)) hr16
      rw [Nat.toDigits_of_base_le hr hge, numeral_append, valueOf_digitChar hlow,
        ih (n / radix) (Nat.div_lt_self (by omega) hr)]
      exact Nat.div_add_mod' n radix

theorem readBack_digits {radix : ℕ} {digits : List Char} (h : '-' ∉ digits) :
    readBack radix digits = numeral radix digits := by
  cases digits with
  | nil => rfl
  | cons ch digits =>
    have hne : ch ≠ '-' := fun he => h (he ▸ List.mem_cons_self ..)
    unfold readBack
    split
    next heq => exact absurd (List.cons.inj heq).1 hne
    next => rfl

/-- The text of a number read back. -/
theorem readBack_sign {radix : ℕ} {value : ℤ} {digits : List Char} (h : '-' ∉ digits)
    (hnum : numeral radix digits = value.natAbs) :
    readBack radix (sign value ++ digits) = value := by
  unfold sign
  split
  next hneg =>
    change -(numeral radix digits : ℤ) = value
    rw [hnum]
    omega
  next hpos =>
    rw [List.nil_append, readBack_digits h, hnum]
    omega

/-- The characters of a numeral as `valueOf` reads them. -/
theorem valueOf_lt {radix value : ℕ} (hr : 1 < radix ∨ value = 0) (hpos : 0 < radix)
    (hr16 : radix ≤ 16) {ch : Char} (h : ch ∈ Nat.toDigits radix value) : valueOf ch < radix := by
  rcases hr with hr | rfl
  · obtain ⟨d, hd, rfl⟩ := digit_of_mem_toDigits hr h
    rwa [valueOf_digitChar (by omega)]
  · rw [Nat.toDigits_zero, List.mem_singleton] at h
    rwa [h]

theorem minus_not_mem {radix value : ℕ} (hr : 1 < radix ∨ value = 0) (hr16 : radix ≤ 16) :
    '-' ∉ Nat.toDigits radix value := by
  rcases hr with hr | rfl
  · exact digitChar_ne (by decide) hr hr16
  · rw [Nat.toDigits_zero]
    decide

/-- The numeral of a number, or of 0 in any radix, read back. -/
theorem numeral_eq {radix value : ℕ} (hr : 1 < radix ∨ value = 0) (hr16 : radix ≤ 16) :
    numeral radix (Nat.toDigits radix value) = value := by
  rcases hr with hr | rfl
  · exact numeral_toDigits hr hr16 value
  · rw [Nat.toDigits_zero]
    simp [numeral, valueOf]

/-! ### The digit loop -/

/-- More turns than needed make no difference. -/
theorem digitLoop_mono {radix fuel fuel' num buffer : ℕ} {mem : ℕ → Char} {r : ℕ × (ℕ → Char)}
    (hle : fuel ≤ fuel') (h : digitLoop radix fuel num buffer mem = some r) :
    digitLoop radix fuel' num buffer mem = some r := by
  induction fuel generalizing fuel' num buffer mem with
  | zero => exact absurd h (by simp [digitLoop])
  | succ fuel ih =>
    obtain ⟨fuel', rfl⟩ : ∃ k, fuel' = k + 1 := ⟨fuel' - 1, by omega⟩
    rw [digitLoop] at h ⊢
    split
    next h0 => rwa [if_pos h0] at h
    next h0 =>
      rw [if_neg h0] at h
      exact ih (by omega) h

/-- The digit loop with a radix above 1 ends, with the digits of `itoaLoop` put down. -/
theorem digitLoop_eq {radix : ℕ} (hr : 1 < radix) {fuel num : ℕ} (hnum : num < 2 ^ fuel)
    (buffer : ℕ) (mem : ℕ → Char) :
    digitLoop radix (fuel + 1) num buffer mem =
      some (buffer + (itoaLoop radix fuel num).length,
        put mem buffer (itoaLoop radix fuel num)) := by
  induction fuel generalizing num buffer mem with
  | zero =>
    have h0 : num = 0 := by omega
    simp [digitLoop, itoaLoop, put, h0]
  | succ fuel ih =>
    rw [digitLoop, itoaLoop]
    split
    next => rfl
    next h0 =>
      have hhalf : num / radix ≤ num / 2 := Nat.div_le_div_left hr (by omega)
      rw [ih (by omega), List.length_cons, put]
      congr 2
      omega

/-- The quotient by 1 is the number itself: the loop goes on for ever. -/
theorem digitLoop_one {num : ℕ} (h0 : num ≠ 0) (fuel buffer : ℕ) (mem : ℕ → Char) :
    digitLoop 1 fuel num buffer mem = none := by
  induction fuel generalizing buffer mem with
  | zero => rfl
  | succ fuel ih => rw [digitLoop, if_neg h0, Nat.div_one, ih]

/-! ### The text in the memory -/

/-- The end of `_itoa`: NUL behind `k + 1` digits, and the digits reversed. -/
def closed (mem : ℕ → Char) (start k : ℕ) : ℕ → Char :=
  reverse (Function.update mem (start + (k + 1)) '\x00') start (start + k)

theorem cells_closed (mem : ℕ → Char) (start k : ℕ) :
    cells (closed mem start k) start (k + 1 + 1) =
      (cells mem start (k + 1)).reverse ++ ['\x00'] := by
  have hlast : closed mem start k (start + (k + 1)) = '\x00' := by
    rw [closed, reverse_outside (by omega), Function.update_self]
  have hdigits : cells (Function.update mem (start + (k + 1)) '\x00') start (k + 1) =
      cells mem start (k + 1) :=
    cells_congr fun i hi => Function.update_of_ne (by omega) _ _
  rw [cells_concat, hlast, closed, cells_reverse, hdigits]

theorem closed_outside {mem : ℕ → Char} {start k a : ℕ} (h : a < start ∨ start + (k + 1) < a) :
    closed mem start k a = mem a := by
  rw [closed, reverse_outside (by omega), Function.update_of_ne (by omega)]

/-- The digits of a numeral, put down the lowest first. -/
theorem exists_written {radix value : ℕ} (hr : 1 < radix ∨ value = 0) (hr16 : radix ≤ 16)
    (hvalue : value < 2 ^ 32) (start : ℕ) {mem : ℕ → Char} (hzero : mem start = '0') :
    ∃ mem' k, (∀ fuel > 32, ∃ last,
        digitLoop radix fuel value start mem = some (last, mem') ∧
          (if value = 0 then last + 1 else last) = start + (k + 1)) ∧
      cells mem' start (k + 1) = (Nat.toDigits radix value).reverse ∧
      ∀ a, a < start ∨ start + k < a → mem' a = mem a := by
  by_cases h0 : value = 0
  · subst h0
    refine ⟨mem, 0, fun fuel hfuel => ⟨start, ?_, rfl⟩, ?_, fun _ _ => rfl⟩
    · obtain ⟨fuel, rfl⟩ : ∃ n, fuel = n + 1 := ⟨fuel - 1, by omega⟩
      rw [digitLoop, if_pos rfl]
    · rw [Nat.toDigits_zero]
      simp [cells, hzero]
  · have hr1 : 1 < radix := hr.resolve_right h0
    have hrev := itoaLoop_eq hr1 hr16 hvalue h0
    have hdigits : itoaLoop radix 32 value = (Nat.toDigits radix value).reverse := by
      rw [← hrev, List.reverse_reverse]
    obtain ⟨k, hk⟩ : ∃ k, (itoaLoop radix 32 value).length = k + 1 := by
      have hne : itoaLoop radix 32 value ≠ [] := by
        rw [hdigits]
        simp
      exact ⟨_, (Nat.succ_pred_eq_of_pos (List.length_pos_of_ne_nil hne)).symm⟩
    refine ⟨put mem start (itoaLoop radix 32 value), k, fun fuel hfuel => ⟨start + (k + 1), ?_, ?_⟩,
      ?_, fun a ha => put_outside (by omega) mem⟩
    · rw [← hk]
      exact digitLoop_mono hfuel (digitLoop_eq hr1 hvalue start mem)
    · rw [if_neg h0]
    · rw [← hk, cells_put, hdigits]

theorem prepared_start (mem : ℕ → Char) (neg_sign : Bool) (buffer : ℕ) :
    prepared mem neg_sign buffer (bufferStart neg_sign buffer) = '0' :=
  Function.update_self _ _ _

theorem prepared_outside {mem : ℕ → Char} {neg_sign : Bool} {buffer a : ℕ} (h : a ≠ buffer)
    (hs : a ≠ bufferStart neg_sign buffer) : prepared mem neg_sign buffer a = mem a := by
  rw [prepared, Function.update_of_ne hs]
  cases neg_sign
  · rfl
  · exact Function.update_of_ne h _ _

theorem prepared_sign (mem : ℕ → Char) (buffer : ℕ) : prepared mem true buffer buffer = '-' := by
  rw [prepared, Function.update_of_ne (by simp [bufferStart])]
  exact Function.update_self _ _ _

/-- The sign and the closed digits, from `buffer` on. -/
theorem cells_signed {value : ℤ} {mem mem' : ℕ → Char} {buffer k : ℕ} {digits : List Char}
    (hlen : digits.length = k + 1)
    (hdigits : cells mem' (bufferStart (value < 0) buffer) (k + 1) = digits.reverse)
    (hout : ∀ a, a < bufferStart (value < 0) buffer ∨ bufferStart (value < 0) buffer + k < a →
      mem' a = prepared mem (value < 0) buffer a) :
    cells (closed mem' (bufferStart (value < 0) buffer) k) buffer
        ((sign value ++ digits).length + 1) = sign value ++ digits ++ ['\x00'] := by
  have hclosed := cells_closed mem' (bufferStart (value < 0) buffer) k
  rw [hdigits, List.reverse_reverse] at hclosed
  unfold sign
  by_cases hneg : value < 0
  · have hstart : bufferStart (value < 0) buffer = buffer + 1 := by simp [bufferStart, hneg]
    rw [hstart] at hclosed hout ⊢
    have hminus : closed mem' (buffer + 1) k buffer = '-' := by
      rw [closed_outside (by omega), hout buffer (by omega), decide_eq_true hneg, prepared_sign]
    simp only [if_pos hneg, List.cons_append, List.nil_append, List.length_cons, hlen]
    rw [cells_succ, hminus, hclosed]
  · have hstart : bufferStart (value < 0) buffer = buffer := by simp [bufferStart, hneg]
    rw [hstart] at hclosed ⊢
    rw [if_neg hneg, List.nil_append, hlen, hclosed]

/-- `_itoa` writes a number in a radix above 1, and 0 in any radix. -/
theorem _itoa_spells {value : ℤ} {buffer : ℕ} {radix : ℤ} (h : ¬ Refused buffer radix)
    (hr : radix ≠ 1 ∨ value = 0) (hvalue : value.natAbs < 2 ^ 32) (mem : ℕ → Char) :
    ∃ mem', (∀ fuel > 32, _itoa fuel mem value.natAbs (value < 0) buffer radix =
        some (buffer, mem')) ∧
      Spells mem mem' buffer radix.toNat value (Nat.toDigits radix.toNat value.natAbs) := by
  have hrange : 0 < radix.toNat ∧ radix.toNat ≤ 16 := by
    unfold Refused at h
    omega
  have hbase : 1 < radix.toNat ∨ value.natAbs = 0 := by omega
  obtain ⟨mem', k, hrun, hdigits, hout⟩ := exists_written hbase hrange.2 hvalue
    (bufferStart (value < 0) buffer) (prepared_start mem (value < 0) buffer)
  have hlen : (Nat.toDigits radix.toNat value.natAbs).length = k + 1 := by
    rw [← List.length_reverse, ← hdigits, length_cells]
  have hminus : '-' ∉ Nat.toDigits radix.toNat value.natAbs := minus_not_mem hbase hrange.2
  refine ⟨closed mem' (bufferStart (value < 0) buffer) k, fun fuel hfuel => ?_, ?_⟩
  · obtain ⟨last, hloop, hlast⟩ := hrun fuel hfuel
    rw [_itoa, if_neg h, hloop]
    simp only [hlast]
    rfl
  · refine ⟨cells_signed hlen hdigits hout, fun ch => valueOf_lt hbase hrange.1 hrange.2, ?_, ?_,
      readBack_sign hminus (numeral_eq hbase hrange.2), ?_⟩
    · rintro rfl
      exact Nat.toDigits_zero _
    · intro h0
      exact ⟨Nat.toDigits_ne_nil, head_toDigits (by omega) hrange.2 (by omega)⟩
    · intro a ha
      rw [List.length_append, hlen] at ha
      have hstart : bufferStart (value < 0) buffer = buffer + (sign value).length := by
        unfold bufferStart sign
        split <;> simp_all
      rw [closed_outside (by omega), hout a (by omega), prepared_outside (by omega) (by omega)]

/-- A radix of 1 leaves `_itoa` in its digit loop. -/
theorem _itoa_one {buffer value : ℕ} (h : ¬ Refused buffer 1) (h0 : value ≠ 0) (fuel : ℕ)
    (mem : ℕ → Char) (neg_sign : Bool) : _itoa fuel mem value neg_sign buffer 1 = none := by
  have hloop := digitLoop_one h0 fuel (bufferStart neg_sign buffer) (prepared mem neg_sign buffer)
  rw [_itoa, if_neg h, Int.toNat_one, hloop]

/-- What the memory holds is the text that `Printf._itoa` returns. -/
theorem _itoa_text {value : ℤ} {buffer : ℕ} {radix : ℤ} (h : ¬ Refused buffer radix)
    (hr : radix ≠ 1) (hlow : -2 ^ 31 ≤ value) (hhigh : value < 2 ^ 31) (mem : ℕ → Char) :
    ∃ mem' text, Printf.itoa value radix.toNat = some text ∧
      (∀ fuel > 32, _itoa fuel mem value.natAbs (value < 0) buffer radix = some (buffer, mem')) ∧
      cells mem' buffer (text.length + 1) = text ++ ['\x00'] := by
  have hrange : 1 < radix.toNat ∧ radix.toNat ≤ 16 := by
    unfold Refused at h
    omega
  have habs : value.natAbs < 2 ^ 32 := by omega
  obtain ⟨mem', hrun, hspells⟩ := _itoa_spells h (Or.inl hr) habs mem
  exact ⟨mem', _, itoa_eq hrange.1 hrange.2 hlow hhigh, hrun, hspells.written⟩

/-! ### Both functions -/

/-- The magnitude of a `long`, which the lowest one has as an `unsigned long`. -/
theorem toNat_magnitude (value : BitVec 32) :
    (if (decide (value.toInt < 0)) = true then -value else value).toNat = value.toInt.natAbs := by
  have hlt := value.isLt
  simp only [decide_eq_true_eq]
  split
  next hneg =>
    rw [BitVec.toInt_eq_toNat_cond] at hneg ⊢
    rw [BitVec.toNat_neg]
    split at hneg <;> omega
  next hpos =>
    rw [BitVec.toInt_eq_toNat_cond] at hpos ⊢
    split at hpos <;> omega

theorem itoa_eq_itoa (fuel : ℕ) (mem : ℕ → Char) (value : BitVec 32) (buffer : ℕ) (radix : ℤ) :
    itoa fuel mem value buffer radix =
      _itoa fuel mem value.toInt.natAbs (value.toInt < 0) buffer radix := by
  rw [itoa]
  simp only [toNat_magnitude]

/-- A call ends and leaves the text of `value` in the memory. -/
def Writes (call : ℕ → Option (ℕ × (ℕ → Char))) (mem : ℕ → Char) (buffer : ℕ) (radix value : ℤ) :
    Prop :=
  ∃ mem' digits, (∀ fuel > 32, call fuel = some (buffer, mem')) ∧
    Spells mem mem' buffer radix.toNat value digits

/-- **Both functions write every number** exactly where the radix is not 1 or the number is 0. -/
theorem itoa_iff {buffer : ℕ} {radix : ℤ} (h : ¬ Refused buffer radix) (mem : ℕ → Char)
    (value : BitVec 32) :
    (Writes (fun fuel => itoa fuel mem value buffer radix) mem buffer radix value.toInt ∧
      Writes (fun fuel => uitoa fuel mem value buffer radix) mem buffer radix value.toNat) ↔
      radix ≠ 1 ∨ value = 0 := by
  constructor
  · rintro ⟨-, mem', digits, hrun, -⟩
    by_contra hcontra
    obtain ⟨rfl, h0⟩ : radix = 1 ∧ value ≠ 0 := by simpa using hcontra
    have hnat : value.toNat ≠ 0 := fun h => h0 (BitVec.eq_of_toNat_eq h)
    have hnone := _itoa_one h hnat 33 mem false
    have hsome := hrun 33 (by decide)
    exact absurd (hnone.symm.trans hsome) (by simp)
  · intro hr
    have hzero : value = 0 → value.toInt = 0 ∧ (value.toNat : ℤ) = 0 := by
      rintro rfl
      decide
    constructor
    · have habs : value.toInt.natAbs < 2 ^ 32 := by
        have := BitVec.le_toInt value
        have := @BitVec.toInt_lt 32 value
        omega
      obtain ⟨mem', hrun, hspells⟩ := _itoa_spells h (hr.imp_right fun h0 => (hzero h0).1) habs mem
      refine ⟨mem', _, fun fuel hfuel => ?_, hspells⟩
      exact (itoa_eq_itoa fuel mem value buffer radix).trans (hrun fuel hfuel)
    · have habs : (value.toNat : ℤ).natAbs < 2 ^ 32 := value.isLt
      obtain ⟨mem', hrun, hspells⟩ := _itoa_spells h (hr.imp_right fun h0 => (hzero h0).2) habs mem
      refine ⟨mem', _, fun fuel hfuel => ?_, hspells⟩
      have hpos : decide ((value.toNat : ℤ) < 0) = false := by simp
      have := hrun fuel hfuel
      rwa [hpos] at this

/-- The lowest number in hexadecimal, in a blank memory. -/
theorem itoa_iff_lowest :
    Writes (fun fuel => itoa fuel (fun _ => ' ') 0x80000000 64 16) (fun _ => ' ') 64 16
        (0x80000000 : BitVec 32).toInt ∧
      Writes (fun fuel => uitoa fuel (fun _ => ' ') 0x80000000 64 16) (fun _ => ' ') 64 16
        (0x80000000 : BitVec 32).toNat :=
  (itoa_iff (by decide) (fun _ => ' ') 0x80000000).mpr (Or.inl (by decide))

/-- In the radix 1 the number 1 is never written. -/
theorem exists_endless : ∃ (buffer : ℕ) (radix : ℤ) (value : BitVec 32), ¬ Refused buffer radix ∧
    ∀ fuel mem, itoa fuel mem value buffer radix = none ∧
      uitoa fuel mem value buffer radix = none := by
  refine ⟨64, 1, 1, by decide, fun fuel mem => ⟨?_, ?_⟩⟩
  · rw [itoa_eq_itoa]
    exact _itoa_one (by decide) (by decide) fuel mem _
  · exact _itoa_one (by decide) (by decide) fuel mem false

end Stdlib
end UnixV6pp
