import UnixV6pp.User.PrintfReference

/-!
# `_sprintf` against the standard

## Main definitions

* `Spec.Meets` — where a conversion prints what the standard asks for.

## Main results

* `Spec.shown_iff` — one conversion prints the text of the standard exactly there.
* `sprintf_iff` — **the text is right for every part of a format exactly where each conversion is
  met, and the parser stops at the NUL exactly where no specification is cut off.**
* `not_formatted` — formats that are printed wrong.
-/

namespace UnixV6pp
namespace Printf

open Words Numerals

namespace Spec

variable (s : Spec) (arg : BitVec 32)

/-! ### Where a conversion is met -/

/-- The numeral without zeros in front. -/
def numeral : List Char := Nat.toDigits s.base (s.magnitude arg)

/-- The precision asks for no zeros, and not for leaving out the number zero. -/
def PrecOk : Prop :=
  ∀ p ∈ s.precision, p ≤ (s.numeral arg).length ∧ (p = 0 → s.magnitude arg ≠ 0)

/-- Signed numbers: zeros are never filled in, the sign `+` takes no place, and a blank for a
sign is not printed. -/
def MeetsSigned : Prop :=
  if arg.toInt < 0 then
    s.PrecOk arg ∧ (s.zeroFill → s.minWidth ≤ (s.numeral arg).length + 1)
  else if s.showsign then
    if s.magnitude arg = 0 ∧ s.precision = some 0 then s.left → s.minWidth ≤ 1
    else s.left ∧ (s.numeral arg).length + 1 ≤ s.minWidth ∧ s.PrecOk arg
  else if s.space then
    s.left = false ∧ (s.numeral arg).length + 1 ≤ s.minWidth ∧ s.PrecOk arg ∧
      (s.zeroFill → s.minWidth ≤ (s.numeral arg).length + 1)
  else s.PrecOk arg ∧ (s.zeroFill → s.minWidth ≤ (s.numeral arg).length)

/-- Unsigned numbers are printed through a signed one. -/
def MeetsUnsigned : Prop :=
  arg.toNat < 2 ^ 31 ∧ s.PrecOk arg ∧ (s.zeroFill → s.minWidth ≤ (s.numeral arg).length)

/-- The prefix `0x` takes no place, and the number zero gets one too. -/
def MeetsHex : Prop :=
  if arg.toNat = 0 then
    s.PrecOk arg ∧ (s.zeroFill ∨ s.left → s.minWidth ≤ 1)
  else
    arg.toNat < 2 ^ 31 ∧ s.left ∧ (s.numeral arg).length + 2 ≤ s.minWidth ∧ s.PrecOk arg

/-- The prefix `0` takes no place, and the number zero gets one too. -/
def MeetsOctal : Prop :=
  if arg.toNat = 0 then
    if s.left ∧ 2 ≤ s.minWidth then s.precision = some 2
    else (∀ p ∈ s.precision, p ≤ 1) ∧ (s.zeroFill → s.minWidth ≤ 1)
  else
    arg.toNat < 2 ^ 31 ∧ s.left ∧ (s.numeral arg).length + 1 ≤ s.minWidth ∧
      ∀ p ∈ s.precision, p ≤ (s.numeral arg).length + 1

/-- A `.` alone is taken for no precision, and a string is padded to its precision. -/
def MeetsString (str : List Char) : Prop :=
  match s.prec with
  | none => True
  | some [] => str.length ≤ s.minWidth ∧ ∀ ch ∈ str, ch = ' '
  | some ds =>
    if s.width = [] then value ds = str.length
    else value ds ≤ s.minWidth ∨ value ds ≤ str.length

/-- Where the conversion prints what the standard asks for. -/
def Meets (str : List Char) : Prop :=
  match s.letter with
  | .c => s.minWidth ≤ 1
  | .s => s.MeetsString str
  | .d | .i => s.MeetsSigned arg
  | .u => s.MeetsUnsigned arg
  | .x => if s.alt then s.MeetsHex arg else s.MeetsUnsigned arg
  | .o => if s.alt then s.MeetsOctal arg else s.MeetsUnsigned arg

/-! ### The digits -/

theorem base_bounds : 1 < s.base ∧ s.base ≤ 16 := by
  unfold base
  split <;> decide

theorem numeral_ne_nil : s.numeral arg ≠ [] := Nat.toDigits_ne_nil

theorem numeral_length_pos : 0 < (s.numeral arg).length :=
  List.length_pos_iff.mpr (s.numeral_ne_nil arg)

theorem numeral_zero (h : s.magnitude arg = 0) : s.numeral arg = ['0'] := by
  rw [numeral, h, Nat.toDigits_zero]

/-- Characters that are no digits. -/
theorem not_mem_numeral {ch : Char} (hch : ∀ d < 16, Nat.digitChar d ≠ ch) :
    ch ∉ s.numeral arg :=
  digitChar_ne hch s.base_bounds.1 s.base_bounds.2

theorem minDigits_length :
    (s.minDigits arg).length =
      if s.precision = some 0 ∧ s.magnitude arg = 0 then 0
      else max (s.precision.getD 0) (s.numeral arg).length := by
  unfold minDigits
  cases hp : s.precision with
  | none => simp [numeral]
  | some p =>
    by_cases h0 : p = 0 ∧ s.magnitude arg = 0
    · simp [h0]
    · have h0' : ¬(some p = some 0 ∧ s.magnitude arg = 0) := by simpa using h0
      simp only [if_neg h0, if_neg h0', List.length_append, List.length_replicate, Option.getD_some,
        numeral]
      omega

theorem minDigits_of_precOk (h : s.PrecOk arg) : s.minDigits arg = s.numeral arg := by
  unfold minDigits
  cases hp : s.precision with
  | none => rfl
  | some p =>
    obtain ⟨hle, h0⟩ := h p hp
    have h0' : ¬(p = 0 ∧ s.magnitude arg = 0) := fun h => h0 h.1 h.2
    have hsub : p - (s.numeral arg).length = 0 := by omega
    simp only [if_neg h0']
    rw [← numeral, hsub]
    rfl

theorem precOk_iff : s.PrecOk arg ↔ (s.minDigits arg).length = (s.numeral arg).length := by
  have hpos := s.numeral_length_pos arg
  constructor
  · intro h
    rw [s.minDigits_of_precOk arg h]
  · intro h p hp
    rw [s.minDigits_length arg, hp] at h
    split at h
    · omega
    next h0 =>
      refine ⟨by simp at h; omega, fun hp0 hm => h0 ⟨by rw [hp0], hm⟩⟩

/-- Zeros and digits make up the plain numeral where neither flag nor precision adds one. -/
theorem zeros_digits_iff {k : ℕ} (hk : k ≠ 0 → s.precision = none) :
    s.numeral arg = List.replicate k '0' ++ s.minDigits arg ↔ s.PrecOk arg ∧ k = 0 := by
  constructor
  · intro h
    have hlen := congrArg List.length h
    rw [List.length_append, List.length_replicate] at hlen
    have hk0 : k = 0 := by
      by_contra hne
      have hmin := s.minDigits_length arg
      rw [hk hne, if_neg (by simp), Option.getD_none] at hmin
      omega
    exact ⟨(s.precOk_iff arg).mpr (by omega), hk0⟩
  · rintro ⟨hprec, rfl⟩
    rw [s.minDigits_of_precOk arg hprec]
    rfl

theorem fill_ne_zero (h : s.fill arg ≠ 0) :
    s.zeroFill = true ∧ s.left = false ∧ s.precision = none := by
  have hz : s.zeroFill = true := by
    by_contra hne
    exact h (if_neg hne)
  have hz' := hz
  rw [zeroFill, decide_eq_true_eq] at hz'
  exact ⟨hz, by simpa [left] using hz'.2.1, hz'.2.2⟩

/-- Digits in front of which nothing is forced. -/
theorem digits_eq_minDigits (h : ¬(s.alt = true ∧ s.letter = .o)) :
    s.digits arg = s.minDigits arg :=
  if_neg fun hall => h ⟨hall.1, hall.2.1⟩

/-- No zeros are filled in where the number takes up the width. -/
theorem fill_eq_zero_iff {n : ℕ} (h : (s.lead arg ++ s.digits arg).length = n) :
    s.fill arg = 0 ↔ (s.zeroFill = true → s.minWidth ≤ n) := by
  unfold fill
  split
  next hz => rw [h, Nat.sub_eq_zero_iff_le]; exact ⟨fun h _ => h, fun h => h hz⟩
  next hz => exact iff_of_true rfl fun h => absurd h hz

/-! ### What the code prints for a number -/

/-- The numeral of `itoa`. -/
def num : List Char :=
  (if arg.toInt < 0 then ['-'] else []) ++ Nat.toDigits s.base arg.toInt.natAbs

/-- What is left of the prefix and the numeral. -/
def kept : List Char :=
  (pre s.info (s.num arg) ++ s.num arg).take
    (if s.left then max s.minWidth (s.num arg).length else (s.num arg).length)

theorem num_length_pos : 0 < (s.num arg).length := by
  have : 0 < (Nat.toDigits s.base arg.toInt.natAbs).length := Nat.length_toDigits_pos
  rw [num, List.length_append]
  omega

theorem number_info : number arg s.info = arg.toInt := by
  simp [number, info]

theorem radix_info (hc : s.letter ≠ .c) (hs : s.letter ≠ .s) : radix s.info = s.base := by
  unfold radix base info
  cases hl : s.letter <;> simp_all [Letter.char]

theorem itoa_num : itoa arg.toInt s.base = some (s.num arg) :=
  itoa_eq s.base_bounds.1 s.base_bounds.2 (BitVec.le_toInt arg) (BitVec.toInt_lt)

theorem blanks_sub (m n : ℕ) : blanks (m - n) = List.replicate (m - n) ' ' := by
  rw [blanks, Int.toNat_sub]

/-- The width as the code has it afterwards. -/
theorem width_info {n : ℕ} (h : 0 < n) :
    (if s.info.width < n then (n : ℤ) else s.info.width) = (max s.minWidth n : ℕ) := by
  have hempty : s.width = [] → s.minWidth = 0 := fun h => by rw [minWidth, h]; rfl
  simp only [info]
  split_ifs <;> simp_all <;> omega

theorem sprintf_interger_eq (hc : s.letter ≠ .c) (hs : s.letter ≠ .s) :
    sprintf_interger arg s.info =
      { text :=
          if s.left then
            (pre s.info (s.num arg) ++ s.num arg) ++
              List.replicate (max s.minWidth (s.num arg).length -
                (pre s.info (s.num arg) ++ s.num arg).length) ' '
          else
            List.replicate (max s.minWidth (s.num arg).length - (s.num arg).length) ' ' ++
              (pre s.info (s.num arg) ++ s.num arg)
        count := (max s.minWidth (s.num arg).length : ℕ)
        words := 1 } := by
  have hitoa : itoa (number arg s.info) (radix s.info) = some (s.num arg) := by
    rw [number_info, s.radix_info hc hs, itoa_num]
  unfold sprintf_interger
  rw [hitoa]
  simp only [s.width_info (s.num_length_pos arg), blanks_sub]
  rfl

/-- The characters printed for a number up to `bp`. -/
theorem shown_interger (hc : s.letter ≠ .c) (hs : s.letter ≠ .s) :
    (sprintf_interger arg s.info).Fits ∧
      (sprintf_interger arg s.info).shown = pad s.left s.minWidth (s.kept arg) := by
  have hle : (s.num arg).length ≤ (pre s.info (s.num arg) ++ s.num arg).length := by
    rw [List.length_append]
    omega
  rw [s.sprintf_interger_eq arg hc hs, kept]
  constructor
  · constructor
    · exact Int.natCast_nonneg _
    · cases s.left
      · simp
      · simp
        omega
  · rw [Printed.shown, Int.toNat_natCast]
    cases s.left
    · exact take_blanks_append s.minWidth hle
    · exact take_append_blanks s.minWidth hle

/-! ### Numbers with and without a prefix -/

/-- The number the standard asks for, before it is padded. -/
def body : List Char := s.lead arg ++ List.replicate (s.fill arg) '0' ++ s.digits arg

theorem body_length :
    (s.body arg).length = (s.lead arg).length + s.fill arg + (s.digits arg).length := by
  rw [body, List.length_append, List.length_append, List.length_replicate]

theorem not_mem_zeros_minDigits {ch : Char} (hch : ∀ d < 16, Nat.digitChar d ≠ ch) (k : ℕ) :
    ch ∉ List.replicate k '0' ++ s.minDigits arg := by
  have hzero : ch ≠ '0' := fun h => hch 0 (by decide) h.symm
  have hnum := s.not_mem_numeral arg hch
  have happend : ∀ {l : List Char} (k : ℕ), ch ∉ l → ch ∉ List.replicate k '0' ++ l := by
    intro l k hl
    rw [List.mem_append, List.mem_replicate]
    rintro (⟨-, h⟩ | h)
    · exact hzero h
    · exact hl h
  refine happend k ?_
  unfold minDigits
  split
  · exact hnum
  · split
    · exact List.not_mem_nil
    · exact happend _ hnum

/-- Beside its digits a number has only its sign or prefix. -/
theorem not_mem_body {ch : Char} (hlead : ch ∉ s.lead arg)
    (hch : ∀ d < 16, Nat.digitChar d ≠ ch) : ch ∉ s.body arg := by
  have hmin := s.not_mem_zeros_minDigits arg hch (s.fill arg)
  have hdig : ch ∉ List.replicate (s.fill arg) '0' ++ s.digits arg := by
    unfold digits
    dsimp only
    split
    · -- one more zero
      have heq : List.replicate (s.fill arg) '0' ++ '0' :: s.minDigits arg =
          List.replicate (s.fill arg + 1) '0' ++ s.minDigits arg := by
        rw [List.replicate_succ', List.append_assoc]
        rfl
      rw [heq]
      exact s.not_mem_zeros_minDigits arg hch _
    · exact hmin
  rw [body, List.append_assoc, List.mem_append]
  exact fun h => h.elim hlead hdig

theorem kept_of_pre_nil (h : pre s.info (s.num arg) = []) : s.kept arg = s.num arg := by
  rw [kept, h, List.nil_append]
  exact List.take_of_length_le (by split <;> omega)

/-- With `-` and a width that holds it the prefix is printed in front. -/
theorem kept_of_fits (hleft : s.left = true)
    (h : (pre s.info (s.num arg) ++ s.num arg).length ≤ s.minWidth) :
    s.kept arg = pre s.info (s.num arg) ++ s.num arg := by
  rw [kept, if_pos hleft]
  exact List.take_of_length_le (by omega)

/-- Otherwise the characters kept are as many as the numeral has, or as the width. -/
theorem kept_length_lt (hpre : pre s.info (s.num arg) ≠ [])
    (h : ¬(s.left = true ∧ (pre s.info (s.num arg) ++ s.num arg).length ≤ s.minWidth)) :
    (s.kept arg).length < (pre s.info (s.num arg) ++ s.num arg).length := by
  have hpos : 0 < (pre s.info (s.num arg)).length := List.length_pos_iff.mpr hpre
  rw [List.length_append] at h ⊢
  rw [kept, List.length_take, List.length_append]
  split
  next hleft =>
    have : ¬(pre s.info (s.num arg)).length + (s.num arg).length ≤ s.minWidth :=
      fun hle => h ⟨hleft, hle⟩
    omega
  next => omega

/-- A number without zeros in front, in terms of the flags. -/
theorem precOk_fill_iff {n : ℕ} (hdig : s.digits arg = s.minDigits arg)
    (hn : (s.lead arg).length + (s.numeral arg).length = n) :
    s.PrecOk arg ∧ s.fill arg = 0 ↔ s.PrecOk arg ∧ (s.zeroFill = true → s.minWidth ≤ n) := by
  refine and_congr_right fun hprec => s.fill_eq_zero_iff arg ?_
  rw [List.length_append, hdig, s.minDigits_of_precOk arg hprec, hn]

theorem fill_none (h : s.fill arg ≠ 0) : s.precision = none := (s.fill_ne_zero arg h).2.2

theorem fill_of_left (h : s.left = true) : s.fill arg = 0 := by
  by_contra hne
  rw [(s.fill_ne_zero arg hne).2.1] at h
  cases h

/-- The numeral behind a sign or prefix that both sides print. -/
theorem append_numeral_iff {n : ℕ} (hdig : s.digits arg = s.minDigits arg)
    (hn : (s.lead arg).length + (s.numeral arg).length = n) :
    s.lead arg ++ s.numeral arg = s.body arg ↔
      s.PrecOk arg ∧ (s.zeroFill = true → s.minWidth ≤ n) := by
  rw [body, List.append_assoc, List.append_right_inj, hdig,
    s.zeros_digits_iff arg (s.fill_none arg), s.precOk_fill_iff arg hdig hn]

/-! ### Signed numbers -/

theorem alt_of_signed (h : s.signed = true) : s.alt = false := by
  rw [signed, decide_eq_true_eq] at h
  rw [alt, decide_eq_false_iff_not]
  intro halt
  rcases s.alt_letter halt with hl | hl <;> rw [hl] at h <;> revert h <;> decide

theorem magnitude_of_signed (h : s.signed = true) : s.magnitude arg = arg.toInt.natAbs := by
  rw [magnitude, if_pos h]

theorem num_of_signed (h : s.signed = true) :
    s.num arg = (if arg.toInt < 0 then ['-'] else []) ++ s.numeral arg := by
  rw [num, numeral, s.magnitude_of_signed arg h]

theorem head_num_iff : (s.num arg).head? = some '-' ↔ arg.toInt < 0 := by
  unfold num
  split
  next h => exact iff_of_true rfl h
  next h =>
    refine iff_of_false ?_ h
    have hminus : ∀ d < 16, Nat.digitChar d ≠ '-' := by decide
    exact fun heq =>
      digitChar_ne hminus s.base_bounds.1 s.base_bounds.2 (List.mem_of_mem_head? heq)

theorem pre_of_signed (h : s.signed = true) :
    pre s.info (s.num arg) = if s.showsign ∧ ¬arg.toInt < 0 then ['+'] else [] := by
  have halt := s.alt_of_signed h
  have hletter : s.letter.char = 'd' ∨ s.letter.char = 'i' := by
    rw [signed, decide_eq_true_eq] at h
    rcases h with h | h <;> rw [h]
    · exact .inl rfl
    · exact .inr rfl
  have hhead : (s.num arg).head? ≠ some '-' ↔ ¬arg.toInt < 0 := not_congr (s.head_num_iff arg)
  simp [pre, info, halt, hletter, hhead]

theorem digits_of_signed (h : s.signed = true) : s.digits arg = s.minDigits arg :=
  s.digits_eq_minDigits arg fun hall => by rw [s.alt_of_signed h] at hall; cases hall.1

theorem lead_of_neg (h : s.signed = true) (hneg : arg.toInt < 0) : s.lead arg = ['-'] := by
  rw [lead, if_pos h, if_pos hneg]

theorem signed_neg_iff (h : s.signed = true) (hneg : arg.toInt < 0) :
    s.kept arg = s.body arg ↔
      s.PrecOk arg ∧ (s.zeroFill = true → s.minWidth ≤ (s.numeral arg).length + 1) := by
  have hlead := s.lead_of_neg arg h hneg
  have hpre : pre s.info (s.num arg) = [] := by
    rw [s.pre_of_signed arg h, if_neg (fun hall => hall.2 hneg)]
  have hkept : s.kept arg = s.lead arg ++ s.numeral arg := by
    rw [s.kept_of_pre_nil arg hpre, s.num_of_signed arg h, if_pos hneg, hlead]
  rw [hkept]
  exact s.append_numeral_iff arg (s.digits_of_signed arg h) (by rw [hlead]; exact Nat.add_comm ..)

/-- The sign `+` is printed in front of a numeral that is cut off by one character for it, unless
the text is padded at its right end. -/
theorem signed_plus_iff (h : s.signed = true) (hneg : ¬arg.toInt < 0)
    (hplus : s.showsign = true) :
    s.kept arg = s.body arg ↔
      if s.magnitude arg = 0 ∧ s.precision = some 0 then s.left = true → s.minWidth ≤ 1
      else s.left = true ∧ (s.numeral arg).length + 1 ≤ s.minWidth ∧ s.PrecOk arg := by
  have hlead : s.lead arg = ['+'] := by rw [lead, if_pos h, if_neg hneg, if_pos hplus]
  have hnum : s.num arg = s.numeral arg := by
    rw [s.num_of_signed arg h, if_neg hneg, List.nil_append]
  have hpre : pre s.info (s.num arg) = ['+'] := by
    rw [s.pre_of_signed arg h, if_pos ⟨hplus, hneg⟩]
  have hdig := s.digits_of_signed arg h
  have hmin := s.minDigits_length arg
  have hpos := s.numeral_length_pos arg
  have hlong : (pre s.info (s.num arg) ++ s.num arg).length = (s.numeral arg).length + 1 := by
    rw [hpre, hnum, List.length_append, Nat.add_comm]
    rfl
  by_cases hfits : s.left = true ∧ (s.numeral arg).length + 1 ≤ s.minWidth
  · have hkept : s.kept arg = s.lead arg ++ s.numeral arg := by
      rw [s.kept_of_fits arg hfits.1 (by omega), hpre, hnum, hlead]
    rw [hkept, s.append_numeral_iff arg hdig rfl]
    have hzero : s.zeroFill = true → s.minWidth ≤ (s.lead arg).length + (s.numeral arg).length :=
      fun hz => by rw [zeroFill, decide_eq_true_eq] at hz; simp_all [left]
    split
    next h0 =>
      refine iff_of_false (fun hall => (hall.1 0 h0.2).2 rfl h0.1) fun hw => ?_
      have := hw hfits.1
      omega
    next => exact ⟨fun hall => ⟨hfits.1, hfits.2, hall.1⟩, fun hall => ⟨hall.2.2, hzero⟩⟩
  · have hlt := s.kept_length_lt arg (by rw [hpre]; exact List.cons_ne_nil _ _) (by rw [hlong]; exact hfits)
    rw [hlong] at hlt
    have hbody := s.body_length arg
    rw [hlead, hdig, hmin, List.length_singleton] at hbody
    split
    next h0 =>
      -- no digits are asked for, and the zero is cut off
      have hnum0 := s.numeral_zero arg h0.1
      have hfill : s.fill arg = 0 := by
        by_contra hne
        rw [s.fill_none arg hne] at h0
        cases h0.2
      rw [hnum0, List.length_singleton] at hfits
      refine iff_of_true ?_ (fun hleft => by_contra fun hw => hfits ⟨hleft, by omega⟩)
      have hbody : s.body arg = ['+'] := by
        rw [if_pos ⟨h0.2, h0.1⟩] at hmin
        rw [body, hlead, hfill, hdig, List.length_eq_zero_iff.mp hmin]
        rfl
      have hone : (if s.left = true then max s.minWidth 1 else 1) = 1 := by
        split
        next hleft =>
          have : ¬1 + 1 ≤ s.minWidth := fun hw => hfits ⟨hleft, hw⟩
          omega
        next => rfl
      rw [hbody, kept, hpre, hnum, hnum0, List.length_singleton, hone]
      rfl
    next h0 =>
      have h0' : ¬(s.precision = some 0 ∧ s.magnitude arg = 0) := fun h => h0 ⟨h.2, h.1⟩
      rw [if_neg h0'] at hbody
      refine iff_of_false (fun heq => ?_) (fun hall => hfits ⟨hall.1, hall.2.1⟩)
      rw [heq] at hlt
      omega

theorem signed_plain_iff (h : s.signed = true) (hneg : ¬arg.toInt < 0)
    (hplus : s.showsign = false) (hspace : s.space = false) :
    s.kept arg = s.body arg ↔
      s.PrecOk arg ∧ (s.zeroFill = true → s.minWidth ≤ (s.numeral arg).length) := by
  have hlead : s.lead arg = [] := by simp [lead, h, hneg, hplus, hspace]
  have hpre : pre s.info (s.num arg) = [] := by
    rw [s.pre_of_signed arg h, if_neg (fun hall => by rw [hplus] at hall; cases hall.1)]
  have hkept : s.kept arg = s.lead arg ++ s.numeral arg := by
    rw [s.kept_of_pre_nil arg hpre, s.num_of_signed arg h, if_neg hneg, hlead]
  rw [hkept]
  exact s.append_numeral_iff arg (s.digits_of_signed arg h) (by rw [hlead]; exact Nat.zero_add _)

/-- The blank for a sign is nothing but padding. -/
theorem signed_space_iff (h : s.signed = true) (hneg : ¬arg.toInt < 0)
    (hplus : s.showsign = false) (hspace : s.space = true) :
    pad s.left s.minWidth (s.kept arg) = pad s.left s.minWidth (s.body arg) ↔
      s.left = false ∧ (s.numeral arg).length + 1 ≤ s.minWidth ∧ s.PrecOk arg ∧
        (s.zeroFill = true → s.minWidth ≤ (s.numeral arg).length + 1) := by
  have hlead : s.lead arg = [' '] := by simp [lead, h, hneg, hplus, hspace]
  have hpre : pre s.info (s.num arg) = [] := by
    rw [s.pre_of_signed arg h, if_neg (fun hall => by rw [hplus] at hall; cases hall.1)]
  have hkept : s.kept arg = s.numeral arg := by
    rw [s.kept_of_pre_nil arg hpre, s.num_of_signed arg h, if_neg hneg, List.nil_append]
  have hdig := s.digits_of_signed arg h
  have hblank : ∀ d < 16, Nat.digitChar d ≠ ' ' := by decide
  have hnum := s.not_mem_numeral arg hblank
  -- the number without its blank
  let rest := List.replicate (s.fill arg) '0' ++ s.minDigits arg
  have hbody : s.body arg = ' ' :: rest := by rw [body, hlead, hdig, List.append_assoc]; rfl
  have hrest : s.numeral arg = rest ↔ s.PrecOk arg ∧ s.fill arg = 0 :=
    s.zeros_digits_iff arg (s.fill_none arg)
  have hok := s.precOk_fill_iff arg (n := (s.numeral arg).length + 1) hdig
    (by rw [hlead]; exact Nat.add_comm ..)
  rw [hkept, hbody]
  cases hleft : s.left with
  | true =>
    refine iff_of_false (fun heq => ?_) nofun
    cases hn : s.numeral arg with
    | nil => exact s.numeral_ne_nil arg hn
    | cons ch tail =>
      rw [hn] at heq hnum
      have hch : ch = ' ' := (List.cons.inj heq).1
      exact hnum (by rw [hch]; exact List.mem_cons_self)
  | false =>
    rw [pad_blank]
    constructor
    · intro heq
      have hink := congrArg ink heq
      rw [ink_pad, ink_pad, ink_of_not_mem hnum,
        ink_of_not_mem (s.not_mem_zeros_minDigits arg hblank _)] at hink
      have hsame : rest = s.numeral arg := hink.symm
      have hall := hok.mp (hrest.mp hink)
      rw [hsame, pad_width_inj] at heq
      exact ⟨rfl, by omega, hall⟩
    · rintro ⟨-, hwidth, hall⟩
      have heq := hrest.mpr (hok.mpr hall)
      rw [← heq, pad_width_inj]
      omega

/-! ### Unsigned numbers -/

theorem magnitude_of_unsigned (h : s.signed = false) : s.magnitude arg = arg.toNat := by
  rw [magnitude, if_neg (by rw [h]; nofun)]

theorem toInt_of_lt (h : arg.toNat < 2 ^ 31) : arg.toInt = arg.toNat := by
  rw [BitVec.toInt_eq_toNat_cond, if_pos (by omega)]

theorem toInt_neg_iff : arg.toInt < 0 ↔ ¬arg.toNat < 2 ^ 31 := by
  rw [BitVec.toInt_eq_toNat_cond]
  have := arg.isLt
  split <;> omega

theorem num_of_unsigned (h : s.signed = false) (hlt : arg.toNat < 2 ^ 31) :
    s.num arg = s.numeral arg := by
  have hneg : ¬arg.toInt < 0 := by rw [toInt_neg_iff]; exact not_not_intro hlt
  rw [num, if_neg hneg, List.nil_append, numeral, s.magnitude_of_unsigned arg h,
    toInt_of_lt arg hlt, Int.natAbs_natCast]

/-- From 2^31 on a minus sign is printed. -/
theorem num_of_large (hge : ¬arg.toNat < 2 ^ 31) :
    s.num arg = '-' :: Nat.toDigits s.base arg.toInt.natAbs := by
  rw [num, if_pos ((toInt_neg_iff arg).mpr hge)]
  rfl

theorem pre_of_unsigned (h : s.signed = false) :
    pre s.info (s.num arg) =
      if s.alt then if s.letter = .x then ['0', 'x'] else ['0'] else [] := by
  have hletter : s.letter.char ≠ 'd' ∧ s.letter.char ≠ 'i' := by
    rw [signed, decide_eq_false_iff_not] at h
    cases hl : s.letter <;> simp_all [Letter.char]
  cases ha : s.alt with
  | false => simp [pre, info, ha, hletter]
  | true =>
    rw [alt, decide_eq_true_eq] at ha
    rcases s.alt_letter ha with hl | hl
    · simp [pre, info, alt, ha, hl, Letter.char]
    · simp [pre, info, alt, ha, hl, Letter.char]

theorem lead_of_unsigned (h : s.signed = false) :
    s.lead arg = if s.alt ∧ s.letter = .x ∧ arg.toNat ≠ 0 then ['0', 'x'] else [] := by
  rw [lead, if_neg (by rw [h]; nofun), s.magnitude_of_unsigned arg h]

/-- No text of the standard for an unsigned number has a minus sign. -/
theorem minus_not_mem_body (h : s.signed = false) : '-' ∉ s.body arg := by
  refine s.not_mem_body arg ?_ (by decide)
  rw [s.lead_of_unsigned arg h]
  split <;> decide

theorem unsigned_iff (h : s.signed = false) (halt : s.alt = false) :
    s.kept arg = s.body arg ↔ s.MeetsUnsigned arg := by
  have hpre : pre s.info (s.num arg) = [] := by
    rw [s.pre_of_unsigned arg h, if_neg (by rw [halt]; nofun)]
  have hkept := s.kept_of_pre_nil arg hpre
  by_cases hlt : arg.toNat < 2 ^ 31
  · have hlead : s.lead arg = [] := by simp [s.lead_of_unsigned arg h, halt]
    have hdig := s.digits_eq_minDigits arg fun hall => by rw [halt] at hall; cases hall.1
    have heq : s.kept arg = s.lead arg ++ s.numeral arg := by
      rw [hkept, s.num_of_unsigned arg h hlt, hlead, List.nil_append]
    rw [heq, s.append_numeral_iff arg hdig rfl, hlead, List.length_nil, Nat.zero_add]
    exact (and_iff_right hlt).symm
  · refine iff_of_false (fun heq => ?_) (fun hall => hlt hall.1)
    have hmem : '-' ∈ s.body arg := by
      rw [← heq, hkept, s.num_of_large arg hlt]
      exact List.mem_cons_self
    exact s.minus_not_mem_body arg h hmem

/-! ### Prefixes -/

theorem mem_take_append_cons {l r : List Char} {ch : Char} {m : ℕ} (h : l.length < m) :
    ch ∈ (l ++ ch :: r).take m := by
  obtain ⟨k, rfl⟩ : ∃ k, m = l.length + (k + 1) := ⟨m - l.length - 1, by omega⟩
  rw [List.take_length_add_append, List.take_succ_cons]
  exact List.mem_append_right _ List.mem_cons_self

theorem minus_mem_kept (hge : ¬arg.toNat < 2 ^ 31)
    (hlt : (pre s.info (s.num arg)).length < (s.kept arg).length) : '-' ∈ s.kept arg := by
  have hm := Nat.lt_of_lt_of_le hlt (List.length_take_le _ _)
  unfold kept
  rw [s.num_of_large arg hge] at hm ⊢
  exact mem_take_append_cons hm

theorem hex_iff (hl : s.letter = .x) (halt : s.alt = true) :
    s.kept arg = s.body arg ↔ s.MeetsHex arg := by
  have h : s.signed = false := by simp [signed, hl]
  have hmag := s.magnitude_of_unsigned arg h
  have hpre : pre s.info (s.num arg) = ['0', 'x'] := by
    rw [s.pre_of_unsigned arg h, if_pos halt, if_pos hl]
  have hdig := s.digits_eq_minDigits arg fun hall => by rw [hl] at hall; cases hall.2
  have hpos := s.numeral_length_pos arg
  unfold MeetsHex
  split
  next h0 =>
    have hlead : s.lead arg = [] := by simp [s.lead_of_unsigned arg h, h0]
    have hnum : s.num arg = s.numeral arg := s.num_of_unsigned arg h (by omega)
    have hnum0 := s.numeral_zero arg (by omega)
    have hkept : s.kept arg =
        ['0', 'x', '0'].take (if s.left then max s.minWidth 1 else 1) := by
      rw [kept, hpre, hnum, hnum0]
      rfl
    by_cases hfits : s.left = true ∧ 2 ≤ s.minWidth
    · refine iff_of_false (fun heq => ?_) fun hall => by have := hall.2 (.inr hfits.1); omega
      have hx : 'x' ∈ s.kept arg := by
        rw [hkept, if_pos hfits.1]
        exact mem_take_append_cons (l := ['0']) (by simp; omega)
      rw [heq] at hx
      exact s.not_mem_body arg (by rw [hlead]; exact List.not_mem_nil) (by decide) hx
    · have hwidth : s.left = true → s.minWidth ≤ 1 := fun hleft => by
        by_contra hw
        exact hfits ⟨hleft, by omega⟩
      have hone : (if s.left = true then max s.minWidth 1 else 1) = 1 := by
        split
        next hleft => have := hwidth hleft; omega
        next => rfl
      have heq : s.kept arg = s.lead arg ++ s.numeral arg := by rw [hkept, hone, hlead, hnum0]; rfl
      rw [heq, s.append_numeral_iff arg (n := 1) hdig (by rw [hlead, hnum0]; rfl)]
      exact and_congr_right fun _ => ⟨fun hz h => h.elim hz hwidth, fun hall hz => hall (.inl hz)⟩
  next h0 =>
    have hlead : s.lead arg = ['0', 'x'] := by simp [s.lead_of_unsigned arg h, h0, hl, halt]
    have hbody := s.body_length arg
    have hmin := s.minDigits_length arg
    rw [if_neg (fun hall => h0 (by omega))] at hmin
    rw [hlead, hdig, hmin] at hbody
    have hbody' : (s.numeral arg).length + 2 ≤ (s.body arg).length := by
      simp only [List.length_cons, List.length_nil] at hbody
      omega
    by_cases hlt : arg.toNat < 2 ^ 31
    · have hnum := s.num_of_unsigned arg h hlt
      have hlong : (pre s.info (s.num arg) ++ s.num arg).length = (s.numeral arg).length + 2 := by
        rw [hpre, hnum, List.length_append, Nat.add_comm]
        rfl
      by_cases hfits : s.left = true ∧ (s.numeral arg).length + 2 ≤ s.minWidth
      · have hkept : s.kept arg = s.lead arg ++ s.numeral arg := by
          rw [s.kept_of_fits arg hfits.1 (by omega), hpre, hnum, hlead]
        have hzero : s.zeroFill = true →
            s.minWidth ≤ (s.lead arg).length + (s.numeral arg).length :=
          fun hz => by rw [zeroFill, decide_eq_true_eq] at hz; simp_all [left]
        rw [hkept, s.append_numeral_iff arg hdig rfl]
        exact ⟨fun hall => ⟨hlt, hfits.1, hfits.2, hall.1⟩, fun hall => ⟨hall.2.2.2, hzero⟩⟩
      · have hshort := s.kept_length_lt arg (by rw [hpre]; exact List.cons_ne_nil _ _) (by rw [hlong]; exact hfits)
        refine iff_of_false (fun heq => ?_) (fun hall => hfits ⟨hall.2.1, hall.2.2.1⟩)
        rw [heq] at hshort
        omega
    · -- either the minus sign is kept or the text is too short
      refine iff_of_false (fun heq => ?_) (fun hall => hlt hall.1)
      have hmem := s.minus_mem_kept arg hlt (by rw [hpre, heq]; simp; omega)
      rw [heq] at hmem
      exact s.minus_not_mem_body arg h hmem

/-- The octal number zero is all zeros. -/
theorem digits_octal_zero (hl : s.letter = .o) (halt : s.alt = true) (h0 : s.magnitude arg = 0) :
    s.digits arg = List.replicate (max (s.precision.getD 0) 1) '0' := by
  have hnum : Nat.toDigits s.base (s.magnitude arg) = ['0'] := s.numeral_zero arg h0
  unfold digits minDigits
  dsimp only
  rw [hnum]
  rcases s.precision with _ | p
  · simp
  · rcases p with _ | p
    · simp [h0, hl, halt]
    · have hzeros : List.replicate p '0' ++ ['0'] = List.replicate (p + 1) '0' :=
        List.replicate_succ'.symm
      simp [hzeros, List.replicate_succ]

/-- The digits of another octal number, with one zero in front at least. -/
theorem digits_octal (hl : s.letter = .o) (halt : s.alt = true) (h0 : s.magnitude arg ≠ 0) :
    s.digits arg =
      List.replicate (max (s.precision.getD 0) ((s.numeral arg).length + 1) -
        (s.numeral arg).length) '0' ++ s.numeral arg := by
  have hmin : s.minDigits arg =
      List.replicate (s.precision.getD 0 - (s.numeral arg).length) '0' ++ s.numeral arg := by
    unfold minDigits
    rcases s.precision with _ | p
    · simp [numeral]
    · simp [numeral, h0]
  have hhead : (s.numeral arg).head? ≠ some '0' :=
    head_toDigits s.base_bounds.1 s.base_bounds.2 h0
  unfold digits
  dsimp only
  rw [hmin]
  rcases Nat.lt_or_ge (s.numeral arg).length (s.precision.getD 0) with hlt | hge
  · obtain ⟨k, hk⟩ : ∃ k, s.precision.getD 0 - (s.numeral arg).length = k + 1 :=
      ⟨_, (Nat.succ_pred_eq_of_pos (by omega)).symm⟩
    have hmax : max (s.precision.getD 0) ((s.numeral arg).length + 1) = s.precision.getD 0 := by
      omega
    rw [hmax, hk, if_neg]
    intro hall
    exact hall.2.2 rfl
  · have hk : s.precision.getD 0 - (s.numeral arg).length = 0 := by omega
    have hmax : max (s.precision.getD 0) ((s.numeral arg).length + 1) - (s.numeral arg).length =
        1 := by omega
    rw [hmax, hk, if_pos ⟨halt, hl, hhead⟩]
    rfl

theorem getD_le_iff {p : Option ℕ} {n : ℕ} : p.getD 0 ≤ n ↔ ∀ k ∈ p, k ≤ n := by
  cases p <;> simp

theorem octal_zero_iff (hl : s.letter = .o) (halt : s.alt = true) (h0 : s.magnitude arg = 0)
    (hlead : s.lead arg = [])
    (hkept : s.kept arg = ['0', '0'].take (if s.left then max s.minWidth 1 else 1)) :
    s.kept arg = s.body arg ↔
      if s.left = true ∧ 2 ≤ s.minWidth then s.precision = some 2
      else (∀ p ∈ s.precision, p ≤ 1) ∧ (s.zeroFill = true → s.minWidth ≤ 1) := by
  have hdig := s.digits_octal_zero arg hl halt h0
  have hbody : s.body arg = List.replicate (s.fill arg + max (s.precision.getD 0) 1) '0' := by
    rw [body, hlead, hdig, List.nil_append, List.replicate_append_replicate]
  split
  next hfits =>
    have htwo : s.kept arg = List.replicate 2 '0' := by
      rw [hkept, if_pos hfits.1]
      exact List.take_of_length_le (by simp; omega)
    rw [htwo, hbody, s.fill_of_left arg hfits.1, List.replicate_left_inj]
    rcases s.precision with _ | p
    · simp
    · simp only [Option.getD_some, Option.some.injEq]
      omega
  next hfits =>
    have hone : (if s.left = true then max s.minWidth 1 else 1) = 1 := by
      split
      next hleft =>
        have : ¬2 ≤ s.minWidth := fun hw => hfits ⟨hleft, hw⟩
        omega
      next => rfl
    have hkept1 : s.kept arg = List.replicate 1 '0' := by rw [hkept, hone]; rfl
    rw [hkept1, hbody, List.replicate_left_inj, ← getD_le_iff]
    constructor
    · intro heq
      have hle : s.precision.getD 0 ≤ 1 := by omega
      have hfill : s.fill arg = 0 := by omega
      refine ⟨hle, (s.fill_eq_zero_iff arg ?_).mp hfill⟩
      rw [hlead, hdig, List.nil_append, List.length_replicate]
      omega
    · rintro ⟨hle, hz⟩
      have hfill : s.fill arg = 0 := by
        refine (s.fill_eq_zero_iff arg ?_).mpr hz
        rw [hlead, hdig, List.nil_append, List.length_replicate]
        omega
      omega

theorem num_length_le_kept : (s.num arg).length ≤ (s.kept arg).length := by
  rw [kept, List.length_take, List.length_append]
  split <;> omega

theorem octal_iff (hl : s.letter = .o) (halt : s.alt = true) :
    s.kept arg = s.body arg ↔ s.MeetsOctal arg := by
  have h : s.signed = false := by simp [signed, hl]
  have hmag := s.magnitude_of_unsigned arg h
  have hpre : pre s.info (s.num arg) = ['0'] := by
    rw [s.pre_of_unsigned arg h, if_pos halt, if_neg (by rw [hl]; nofun)]
  have hlead : s.lead arg = [] := by simp [s.lead_of_unsigned arg h, hl]
  have hpos := s.numeral_length_pos arg
  unfold MeetsOctal
  split
  next h0 =>
    have hnum : s.num arg = s.numeral arg := s.num_of_unsigned arg h (by omega)
    have hnum0 := s.numeral_zero arg (by omega)
    have hkept : s.kept arg = ['0', '0'].take (if s.left then max s.minWidth 1 else 1) := by
      rw [kept, hpre, hnum, hnum0]
      rfl
    exact s.octal_zero_iff arg hl halt (by omega) hlead hkept
  next h0 =>
    have hdig := s.digits_octal arg hl halt (by omega)
    have hbody := s.body_length arg
    rw [hlead, hdig, List.length_append, List.length_replicate, List.length_nil] at hbody
    by_cases hlt : arg.toNat < 2 ^ 31
    · have hnum := s.num_of_unsigned arg h hlt
      have hlong : (pre s.info (s.num arg) ++ s.num arg).length = (s.numeral arg).length + 1 := by
        rw [hpre, hnum, List.length_append, Nat.add_comm]
        rfl
      by_cases hfits : s.left = true ∧ (s.numeral arg).length + 1 ≤ s.minWidth
      · have hkept : s.kept arg = List.replicate 1 '0' ++ s.numeral arg := by
          rw [s.kept_of_fits arg hfits.1 (by omega), hpre, hnum]
          rfl
        have heq : s.kept arg = s.body arg ↔ s.precision.getD 0 ≤ (s.numeral arg).length + 1 := by
          rw [hkept, body, hlead, hdig, s.fill_of_left arg hfits.1]
          constructor
          · intro heq
            have hlen := congrArg List.length heq
            simp only [List.length_append, List.length_replicate, List.length_nil] at hlen
            omega
          · intro hle
            have hone : max (s.precision.getD 0) ((s.numeral arg).length + 1) -
                (s.numeral arg).length = 1 := by omega
            rw [hone]
            rfl
        rw [heq, getD_le_iff]
        exact ⟨fun hall => ⟨hlt, hfits.1, hfits.2, hall⟩, fun hall => hall.2.2.2⟩
      · have hshort := s.kept_length_lt arg (by rw [hpre]; exact List.cons_ne_nil _ _) (by rw [hlong]; exact hfits)
        refine iff_of_false (fun heq => ?_) (fun hall => hfits ⟨hall.2.1, hall.2.2.1⟩)
        rw [heq] at hshort
        omega
    · refine iff_of_false (fun heq => ?_) (fun hall => hlt hall.1)
      have hlen : 2 ≤ (s.num arg).length := by
        have : 0 < (Nat.toDigits s.base arg.toInt.natAbs).length := Nat.length_toDigits_pos
        rw [s.num_of_large arg hlt, List.length_cons]
        omega
      have hmem := s.minus_mem_kept arg hlt
        (by rw [hpre]; exact Nat.le_trans hlen (s.num_length_le_kept arg))
      rw [heq] at hmem
      exact s.minus_not_mem_body arg h hmem

/-! ### Strings -/

/-- The precision as `sprintf_string` has it. -/
def stringPrec (str : List Char) : ℕ :=
  match s.prec with
  | none => str.length
  | some [] => str.length
  | some ds => value ds

/-- The width as `sprintf_string` has it at first. -/
def stringWidth (str : List Char) : ℕ := if s.width = [] then str.length else s.minWidth

theorem info_prec (str : List Char) :
    (if s.info.prec = -1 then (str.length : ℤ) else s.info.prec) = s.stringPrec str := by
  unfold info stringPrec precOf
  split <;> simp_all

theorem info_width (str : List Char) :
    (if s.info.width = -1 then (str.length : ℤ) else s.info.width) = s.stringWidth str := by
  unfold info stringWidth
  split <;> simp_all

/-- A string is padded to its precision at least. -/
theorem sprintf_string_eq (str : List Char) :
    sprintf_string str s.info =
      { text :=
          pad s.left (max (s.stringWidth str) (s.stringPrec str)) (str.take (s.stringPrec str))
        count := (max (s.stringWidth str) (s.stringPrec str) : ℕ)
        words := 1 } := by
  have hwidth : (if (s.stringPrec str : ℤ) > s.stringWidth str then (s.stringPrec str : ℤ)
      else s.stringWidth str) = (max (s.stringWidth str) (s.stringPrec str) : ℕ) := by
    split <;> omega
  have hshort : (if (str.length : ℤ) > s.stringPrec str then (s.stringPrec str : ℤ)
      else str.length) = (str.take (s.stringPrec str)).length := by
    rw [List.length_take]
    split <;> omega
  have hle : (str.take (s.stringPrec str)).length ≤
      max (s.stringWidth str) (s.stringPrec str) := by
    rw [List.length_take]
    omega
  unfold sprintf_string
  dsimp only
  rw [s.info_prec str, s.info_width str, hwidth, hshort]
  generalize hw : max (s.stringWidth str) (s.stringPrec str) = w at hle ⊢
  have hkeep : ((w : ℤ) - ((w : ℤ) - (str.take (s.stringPrec str)).length)).toNat =
      (str.take (s.stringPrec str)).length := by omega
  have htake : str.take (str.take (s.stringPrec str)).length = str.take (s.stringPrec str) := by
    rw [List.length_take, ← List.take_eq_take_min]
  rw [hkeep, htake, blanks_sub]
  rfl

theorem shown_string (str : List Char) :
    (sprintf_string str s.info).Fits ∧
      (sprintf_string str s.info).shown =
        pad s.left (max (s.stringWidth str) (s.stringPrec str)) (str.take (s.stringPrec str)) := by
  have hlen := length_pad s.left (max (s.stringWidth str) (s.stringPrec str))
    (str.take (s.stringPrec str))
  rw [sprintf_string_eq]
  refine ⟨⟨Int.natCast_nonneg _, ?_⟩, ?_⟩
  · dsimp only
    omega
  · rw [Printed.shown, Int.toNat_natCast]
    apply List.take_of_length_le
    rw [hlen, List.length_take]
    omega

theorem minWidth_of_nil (h : s.width = []) : s.minWidth = 0 := by
  rw [minWidth, h]
  rfl

/-- Without a precision the whole string is padded to the width. -/
theorem pad_string {str : List Char} (h : s.stringPrec str = str.length) :
    pad s.left (max (s.stringWidth str) (s.stringPrec str)) (str.take (s.stringPrec str)) =
      pad s.left s.minWidth str := by
  rw [h, List.take_length, pad_width_inj]
  unfold stringWidth
  split
  next hw => rw [s.minWidth_of_nil hw]; omega
  next => omega

theorem string_iff (str : List Char) :
    pad s.left (max (s.stringWidth str) (s.stringPrec str)) (str.take (s.stringPrec str)) =
        pad s.left s.minWidth (s.precision.elim str str.take) ↔ s.MeetsString str := by
  have hlen : (str.take (s.stringPrec str)).length = min (s.stringPrec str) str.length :=
    List.length_take
  unfold MeetsString precision
  rcases hp : s.prec with _ | ds
  · have hprec : s.stringPrec str = str.length := by simp [stringPrec, hp]
    exact iff_of_true (s.pad_string hprec) trivial
  · rcases ds with _ | ⟨d, ds⟩
    · have hprec : s.stringPrec str = str.length := by simp [stringPrec, hp]
      rw [s.pad_string hprec]
      exact pad_eq_blanks.trans (and_congr_right fun _ => ink_eq_nil_iff)
    · have hprec : s.stringPrec str = value (d :: ds) := by simp [stringPrec, hp]
      change pad _ _ _ = pad s.left s.minWidth (str.take (value (d :: ds))) ↔
        if s.width = [] then value (d :: ds) = str.length
        else value (d :: ds) ≤ s.minWidth ∨ value (d :: ds) ≤ str.length
      rw [← hprec, pad_width_inj, hlen]
      unfold stringWidth
      split
      next hw => rw [s.minWidth_of_nil hw]; omega
      next => omega

/-! ### One conversion -/

theorem char_iff : [charOf arg] = pad s.left s.minWidth [charOf arg] ↔ s.minWidth ≤ 1 := by
  constructor
  · intro h
    have hlen := congrArg List.length h
    rw [length_pad, List.length_singleton] at hlen
    omega
  · intro h
    exact (pad_of_le s.left h).symm

theorem blank_not_mem_kept : ' ' ∉ s.kept arg := by
  have hdigit : ∀ d < 16, Nat.digitChar d ≠ ' ' := by decide
  have hpre : ' ' ∉ pre s.info (s.num arg) := by
    cases h : s.signed with
    | true => rw [s.pre_of_signed arg h]; split <;> decide
    | false => rw [s.pre_of_unsigned arg h]; split <;> [split; skip] <;> decide
  have hnum : ' ' ∉ s.num arg := by
    rw [num, List.mem_append]
    rintro (h | h)
    · revert h
      split <;> decide
    · exact digitChar_ne hdigit s.base_bounds.1 s.base_bounds.2 h
  intro h
  exact (List.mem_append.mp (List.mem_of_mem_take h)).elim hpre hnum

/-- Numbers without a blank for a sign are compared before they are padded. -/
theorem pad_kept_iff (hlead : ' ' ∉ s.lead arg) :
    pad s.left s.minWidth (s.kept arg) = pad s.left s.minWidth (s.body arg) ↔
      s.kept arg = s.body arg :=
  pad_inj (s.blank_not_mem_kept arg) (s.not_mem_body arg hlead (by decide))

theorem signed_iff (h : s.signed = true) :
    pad s.left s.minWidth (s.kept arg) = pad s.left s.minWidth (s.body arg) ↔
      s.MeetsSigned arg := by
  unfold MeetsSigned
  split
  next hneg =>
    rw [s.pad_kept_iff arg (by rw [s.lead_of_neg arg h hneg]; decide)]
    exact s.signed_neg_iff arg h hneg
  next hneg =>
    split
    next hplus =>
      have hlead : s.lead arg = ['+'] := by rw [lead, if_pos h, if_neg hneg, if_pos hplus]
      rw [s.pad_kept_iff arg (by rw [hlead]; decide)]
      exact s.signed_plus_iff arg h hneg hplus
    next hplus =>
      have hplus' : s.showsign = false := Bool.not_eq_true _ ▸ hplus
      split
      next hspace => exact s.signed_space_iff arg h hneg hplus' hspace
      next hspace =>
        have hspace' : s.space = false := Bool.not_eq_true _ ▸ hspace
        have hlead : s.lead arg = [] := by simp [lead, h, hneg, hplus', hspace']
        rw [s.pad_kept_iff arg (by rw [hlead]; decide)]
        exact s.signed_plain_iff arg h hneg hplus' hspace'

theorem interger_iff (hc : s.letter ≠ .c) (hs : s.letter ≠ .s) (str : List Char) :
    pad s.left s.minWidth (s.kept arg) = pad s.left s.minWidth (s.body arg) ↔
      s.Meets arg str := by
  have hunsigned : s.signed = false → ' ' ∉ s.lead arg := fun h => by
    rw [s.lead_of_unsigned arg h]
    split <;> decide
  unfold Meets
  cases hl : s.letter with
  | c => exact absurd hl hc
  | s => exact absurd hl hs
  | d => exact s.signed_iff arg (by simp [signed, hl])
  | i => exact s.signed_iff arg (by simp [signed, hl])
  | u =>
    have h : s.signed = false := by simp [signed, hl]
    have halt : s.alt = false := by
      rw [alt, decide_eq_false_iff_not]
      intro ha
      rcases s.alt_letter ha with h | h <;> rw [hl] at h <;> cases h
    rw [s.pad_kept_iff arg (hunsigned h)]
    exact s.unsigned_iff arg h halt
  | x =>
    have h : s.signed = false := by simp [signed, hl]
    rw [s.pad_kept_iff arg (hunsigned h)]
    cases halt : s.alt with
    | true => exact s.hex_iff arg hl halt
    | false => exact s.unsigned_iff arg h halt
  | o =>
    have h : s.signed = false := by simp [signed, hl]
    rw [s.pad_kept_iff arg (hunsigned h)]
    cases halt : s.alt with
    | true => exact s.octal_iff arg hl halt
    | false => exact s.unsigned_iff arg h halt

end Spec

/-- What `convert` does for a letter that is a number's. -/
theorem convert_number (args : Args) (offset : ℕ) (s : Spec) (hc : s.letter ≠ .c)
    (hs : s.letter ≠ .s) :
    convert args offset s.info = sprintf_interger (args.va offset) s.info := by
  unfold convert
  cases hl : s.letter <;> simp_all [Spec.info, Letter.char]

/-- One conversion prints the text of the standard exactly where it is met. -/
theorem shown_iff (args : Args) (offset : ℕ) (s : Spec) :
    (convert args offset s.info).Fits ∧ (convert args offset s.info).words = 1 ∧
      ((convert args offset s.info).shown =
          s.reference (args.va offset) (args.mem (args.va offset)) ↔
        s.Meets (args.va offset) (args.mem (args.va offset))) := by
  by_cases hc : s.letter = .c
  · have hconv : convert args offset s.info = sprintf_char (args.va offset) := by
      simp [convert, Spec.info, hc, Letter.char]
    rw [hconv, Spec.reference, Spec.Meets, hc]
    exact ⟨⟨Int.zero_le_ofNat 1, Int.le_refl _⟩, rfl, s.char_iff (args.va offset)⟩
  by_cases hs : s.letter = .s
  · have hconv : convert args offset s.info =
        sprintf_string (args.mem (args.va offset)) s.info := by
      simp [convert, Spec.info, hs, Letter.char]
    have hshown := s.shown_string (args.mem (args.va offset))
    rw [hconv, Spec.reference, Spec.Meets, hs]
    refine ⟨hshown.1, rfl, ?_⟩
    rw [hshown.2]
    exact s.string_iff _
  · have hshown := s.shown_interger (args.va offset) hc hs
    have hbody : s.reference (args.va offset) (args.mem (args.va offset)) =
        pad s.left s.minWidth (s.body (args.va offset)) := by
      unfold Spec.reference
      cases hl : s.letter <;> first | rfl | exact absurd hl hc | exact absurd hl hs
    rw [convert_number args offset s hc hs, hshown.2, hbody]
    refine ⟨hshown.1, ?_, s.interger_iff (args.va offset) hc hs _⟩
    rw [s.sprintf_interger_eq (args.va offset) hc hs]

/-! ### A whole format -/

/-- The state after the pieces of a format. -/
def printPieces (args : Args) : State → List Piece → State
  | s, [] => s
  | s, .literal ch _ :: pieces => printPieces args (s.print (literal [ch])) pieces
  | s, .conversion c :: pieces =>
    printPieces args (s.print (convert args s.offset c.info)) pieces

/-- What the code leaves of a whole format. -/
def shownPieces (args : Args) : ℕ → List Piece → List Char
  | _, [] => []
  | offset, .literal ch _ :: pieces => ch :: shownPieces args offset pieces
  | offset, .conversion c :: pieces =>
    (convert args offset c.info).shown ++ shownPieces args (offset + 1) pieces

theorem sprintfLoop_render (args : Args) (pieces : List Piece) {fuel : ℕ}
    (hfuel : (render pieces).length < fuel) (s : State) :
    sprintfLoop args fuel (render pieces) s = .ok (printPieces args s pieces) := by
  induction pieces generalizing fuel s with
  | nil =>
    obtain ⟨fuel, rfl⟩ : ∃ k, fuel = k + 1 := ⟨fuel - 1, by omega⟩
    exact sprintfLoop_nil args fuel s
  | cons piece pieces ih =>
    obtain ⟨fuel, rfl⟩ : ∃ k, fuel = k + 1 := ⟨fuel - 1, by omega⟩
    cases piece with
    | literal ch hch =>
      have hrender : render (.literal ch hch :: pieces) = ch :: render pieces := rfl
      rw [hrender, List.length_cons] at hfuel
      rw [hrender, sprintfLoop_literal args fuel hch, ih (by omega)]
      rfl
    | conversion c =>
      have hrender : render (.conversion c :: pieces) = '%' :: (c.render ++ render pieces) := rfl
      rw [hrender, List.length_cons, List.length_append] at hfuel
      rw [hrender, sprintfLoop_spec, c.parseSpec_render]
      exact ih (by omega) _

theorem Wrote.pieces {args : Args} {s : State} {text : List Char} (hs : Wrote s text)
    (pieces : List Piece) :
    Wrote (printPieces args s pieces) (text ++ shownPieces args s.offset pieces) := by
  induction pieces generalizing s text with
  | nil => simpa [printPieces, shownPieces] using hs
  | cons piece pieces ih =>
    cases piece with
    | literal ch hch =>
      have hrec := ih (hs.print (fits_literal [ch]))
      rw [shown_literal, List.append_assoc] at hrec
      exact hrec
    | conversion c =>
      obtain ⟨hfits, hwords, -⟩ := shown_iff args s.offset c
      have hrec := ih (hs.print hfits)
      have hoffset : (s.print (convert args s.offset c.info)).offset = s.offset + 1 := by
        rw [State.print, hwords]
      rw [hoffset, List.append_assoc] at hrec
      exact hrec

/-- The call leaves `text` and one NUL in the buffer and returns the length of `text`. -/
def Prints (r : Except Fault ((ℤ → Char) × ℤ)) (text : List Char) : Prop :=
  ∃ buffer, r = .ok (buffer, text.length) ∧
    slice buffer (text.length + 1) = text ++ ['\x00']

theorem prints_iff (args : Args) (buffer : ℤ → Char) (pieces : List Piece) (text : List Char) :
    Prints (_sprintf args buffer (render pieces)) text ↔ shownPieces args 0 pieces = text := by
  have hstart : Wrote ⟨buffer, 0, 0⟩ [] := ⟨rfl, rfl⟩
  have hwrote : Wrote (printPieces args ⟨buffer, 0, 0⟩ pieces) ([] ++ shownPieces args 0 pieces) :=
    hstart.pieces pieces
  obtain ⟨hbp, hslice⟩ := hwrote
  have hloop := sprintfLoop_render args pieces (Nat.lt_succ_self _) ⟨buffer, 0, 0⟩
  generalize printPieces args ⟨buffer, 0, 0⟩ pieces = s at hbp hslice hloop
  rw [List.nil_append] at hbp hslice
  generalize shownPieces args 0 pieces = shown at hbp hslice ⊢
  have hcall : _sprintf args buffer (render pieces) =
      .ok (write s.buffer shown.length ['\x00'], shown.length) := by
    rw [_sprintf, hloop, ← hbp]
    rfl
  have hnul : slice (write s.buffer shown.length ['\x00']) (shown.length + 1) =
      shown ++ ['\x00'] := by
    have hput : slice (write s.buffer shown.length ['\x00']) (shown.length + 1) =
        slice s.buffer shown.length ++ ['\x00'].take 1 := slice_write _ (Nat.le_refl _)
    rw [hput, hslice]
    rfl
  rw [hcall]
  constructor
  · rintro ⟨buffer', heq, htext⟩
    obtain ⟨rfl, hlen⟩ := Prod.mk.inj (Except.ok.inj heq)
    rw [← Int.natCast_inj.mp hlen, hnul] at htext
    exact List.append_cancel_right htext
  · rintro rfl
    exact ⟨_, rfl, hnul⟩

/-- A format is right in every part of it where each conversion is. -/
theorem shownPieces_iff (args : Args) (offset : ℕ) (pieces : List Piece) :
    (∀ n, shownPieces args offset (pieces.take n) = reference args offset (pieces.take n)) ↔
      ∀ c ∈ conversions args offset pieces, c.1.Meets c.2 (args.mem c.2) := by
  induction pieces generalizing offset with
  | nil => simp [shownPieces, reference, conversions]
  | cons piece pieces ih =>
    cases piece with
    | literal ch hch =>
      rw [conversions, ← ih offset]
      constructor
      · intro h n
        exact (List.cons.inj (h (n + 1))).2
      · rintro h (_ | n)
        · rfl
        · exact congrArg (ch :: ·) (h n)
    | conversion c =>
      rw [conversions, List.forall_mem_cons, ← ih (offset + 1), ← (shown_iff args offset c).2.2]
      constructor
      · intro h
        -- the first conversion alone, then the rest behind it
        have hfirst := h 1
        rw [List.take_succ_cons, List.take_zero] at hfirst
        simp only [shownPieces, reference, List.append_nil] at hfirst
        refine ⟨hfirst, fun n => ?_⟩
        have hn := h (n + 1)
        rw [List.take_succ_cons, shownPieces, reference, hfirst] at hn
        exact List.append_cancel_left hn
      · rintro ⟨hfirst, h⟩ (_ | n)
        · rfl
        · rw [List.take_succ_cons, shownPieces, reference, hfirst, h n]

/-- The text is right for every part of a format exactly where each conversion is met, and the
parser stops at the NUL exactly where no specification is cut off. -/
theorem sprintf_iff (args : Args) (buffer : ℤ → Char) :
    (∀ pieces : List Piece,
      (∀ n, Prints (_sprintf args buffer (render (pieces.take n)))
          (reference args 0 (pieces.take n))) ↔
        ∀ c ∈ conversions args 0 pieces, c.1.Meets c.2 (args.mem c.2)) ∧
      ∀ format : List Char,
        (∃ r, _sprintf args buffer format = .ok r) ↔ Complete format := by
  refine ⟨fun pieces => ?_, _sprintf_ok_iff args buffer⟩
  rw [← shownPieces_iff]
  exact forall_congr' fun n => prints_iff args buffer _ _

/-! ### Formats that go wrong -/

/-- `%+d`. -/
def plusSign : Spec where
  flags := [.plus]
  width := []
  prec := none
  letter := .d
  width_head := by decide
  width_lt := by decide
  prec_lt := by simp
  alt_letter := by decide
  zero_letter := by decide
  prec_letter := by decide

/-- Every argument is the number five. -/
def fives : Args where
  va := fun _ => 5
  mem := fun _ => []
  sprintf_double := fun _ _ _ => literal []

/-- Instead of `+5|` the text is `+|`, and a format that ends in `%` is read on behind its NUL. -/
theorem not_formatted :
    ¬Prints (_sprintf fives (fun _ => 'z') (render [.conversion plusSign, .literal '|' nofun]))
        (reference fives 0 [.conversion plusSign, .literal '|' nofun]) ∧
      _sprintf fives (fun _ => 'z') ['a', '%'] = .error .pastEnd := by
  refine ⟨?_, (_sprintf_pastEnd_iff _ _ _).mpr (by decide)⟩
  rw [prints_iff]
  decide +kernel

/-- The standard's text for `%-+4d|`. -/
example : (reference fives 0 [.conversion { plusSign with
    flags := [.minus, .plus], width := [4], width_head := by decide, width_lt := by decide,
    alt_letter := by decide, zero_letter := by decide }, .literal '|' nofun]) =
      ['+', '5', ' ', ' ', '|'] := by
  decide +kernel

end Printf
end UnixV6pp
