import Mathlib.Data.Nat.Basic
import Mathlib.Data.List.Basic

/-!
# Numerals and padding

* `digit_of_mem_toDigits`, `head_toDigits` — the characters of a numeral; the first is not a zero.
* `pad` — a text padded with blanks to a width.
* `pad_inj` — **texts without blanks are told apart after padding.**
* `pad_blank` — a text that begins with a blank is the rest, padded further.
-/

namespace Numerals

/-! ### Numerals -/

/-- The characters of a numeral are digits. -/
theorem digit_of_mem_toDigits {b n : ℕ} (hb : 1 < b) {ch : Char} (h : ch ∈ Nat.toDigits b n) :
    ∃ d < b, ch = Nat.digitChar d := by
  induction n using Nat.strongRecOn with
  | ind n ih =>
    rcases Nat.lt_or_ge n b with hlt | hge
    · rw [Nat.toDigits_of_lt_base hlt, List.mem_singleton] at h
      exact ⟨n, hlt, h⟩
    · rw [Nat.toDigits_of_base_le hb hge, List.mem_append, List.mem_singleton] at h
      rcases h with h | h
      · exact ih (n / b) (Nat.div_lt_self (by omega) hb) h
      · exact ⟨n % b, Nat.mod_lt _ (by omega), h⟩

theorem digitChar_ne {ch : Char} (hch : ∀ d < 16, Nat.digitChar d ≠ ch) {b n : ℕ} (hb : 1 < b)
    (hb16 : b ≤ 16) : ch ∉ Nat.toDigits b n := by
  intro h
  obtain ⟨d, hd, rfl⟩ := digit_of_mem_toDigits hb h
  exact hch d (by omega) rfl

theorem digitChar_eq_zero {d : ℕ} (hd : d < 16) (h : Nat.digitChar d = '0') : d = 0 := by
  revert d
  decide

/-- A positive numeral does not begin with a zero. -/
theorem head_toDigits {b n : ℕ} (hb : 1 < b) (hb16 : b ≤ 16) (hn : n ≠ 0) :
    (Nat.toDigits b n).head? ≠ some '0' := by
  induction n using Nat.strongRecOn with
  | ind n ih =>
    rcases Nat.lt_or_ge n b with hlt | hge
    · rw [Nat.toDigits_of_lt_base hlt]
      intro h
      exact hn (digitChar_eq_zero (by omega) (Option.some.inj h))
    · have hdiv : n / b ≠ 0 := by
        have := Nat.div_pos hge (by omega : 0 < b)
        omega
      have hne := ih (n / b) (Nat.div_lt_self (by omega) hb) hdiv
      rw [Nat.toDigits_of_base_le hb hge]
      cases hd : Nat.toDigits b (n / b) with
      | nil => exact absurd hd Nat.toDigits_ne_nil
      | cons ch rest =>
        rw [hd] at hne
        exact hne

/-! ### Padding -/

/-- `text` padded with blanks to `width`, at the right end or the left one. -/
def pad (left : Bool) (width : ℕ) (text : List Char) : List Char :=
  let blanks := List.replicate (width - text.length) ' '
  if left then text ++ blanks else blanks ++ text

theorem length_pad (left : Bool) (width : ℕ) (text : List Char) :
    (pad left width text).length = max width text.length := by
  unfold pad
  split <;> simp only [List.length_append, List.length_replicate] <;> omega

theorem pad_of_le {width : ℕ} {text : List Char} (left : Bool) (h : width ≤ text.length) :
    pad left width text = text := by
  have h0 : width - text.length = 0 := by omega
  unfold pad
  rw [h0]
  cases left <;> simp

/-- The characters other than blanks. -/
def ink (text : List Char) : List Char := text.filter (· ≠ ' ')

theorem ink_of_not_mem {text : List Char} (h : ' ' ∉ text) : ink text = text :=
  List.filter_eq_self.mpr fun ch hch => by
    have : ch ≠ ' ' := fun he => h (he ▸ hch)
    simpa using this

theorem ink_append (l r : List Char) : ink (l ++ r) = ink l ++ ink r := List.filter_append ..

theorem ink_blanks (n : ℕ) : ink (List.replicate n ' ') = [] := by
  simp [ink]

theorem ink_eq_nil_iff {text : List Char} : ink text = [] ↔ ∀ ch ∈ text, ch = ' ' := by
  simp [ink]

@[simp] theorem ink_pad (left : Bool) (width : ℕ) (text : List Char) :
    ink (pad left width text) = ink text := by
  unfold pad
  split <;> simp [ink_append, ink_blanks]

/-- Texts without blanks are told apart after padding. -/
theorem pad_inj {left : Bool} {width : ℕ} {s t : List Char} (hs : ' ' ∉ s) (ht : ' ' ∉ t) :
    pad left width s = pad left width t ↔ s = t := by
  constructor
  · intro h
    have hink := congrArg ink h
    rwa [ink_pad, ink_pad, ink_of_not_mem hs, ink_of_not_mem ht] at hink
  · rintro rfl
    rfl

/-- A blank in front counts as padding at the left end. -/
theorem pad_blank (width : ℕ) (text : List Char) :
    pad false width (' ' :: text) = pad false (max width (text.length + 1)) text := by
  have heq : max width (text.length + 1) - text.length = width - (text.length + 1) + 1 := by omega
  simp only [pad, List.length_cons, heq, List.replicate_succ', List.append_assoc]
  rfl

/-- A text of at least `n` characters, padded at the right end and cut off behind the greater one
of the width and `n`. -/
theorem take_append_blanks (width : ℕ) {n : ℕ} {text : List Char} (h : n ≤ text.length) :
    (text ++ List.replicate (max width n - text.length) ' ').take (max width n) =
      pad true width (text.take (max width n)) := by
  rcases Nat.le_total text.length (max width n) with hle | hge
  · have hblank : max width n - text.length = width - text.length := by omega
    rw [List.take_of_length_le (by simp; omega), List.take_of_length_le hle, hblank]
    rfl
  · have hlen : width ≤ (text.take (max width n)).length := by
      rw [List.length_take]
      omega
    rw [List.take_append_of_le_length hge, pad_of_le true hlen]

/-- The same at the left end, where `n` characters of the text are left. -/
theorem take_blanks_append (width : ℕ) {n : ℕ} {text : List Char} (h : n ≤ text.length) :
    (List.replicate (max width n - n) ' ' ++ text).take (max width n) =
      pad false width (text.take n) := by
  have hlen : (text.take n).length = n := by
    rw [List.length_take]
    omega
  have hmax : max width n = (max width n - n) + n := by omega
  have hblank : max width n - n = width - n := by omega
  rw [List.take_append, List.length_replicate, List.take_of_length_le (by simp)]
  have hrest : max width n - (max width n - n) = n := by omega
  rw [hrest, hblank, pad, hlen]
  rfl

/-- Only the width beyond the text counts. -/
theorem pad_width_inj {left : Bool} {m n : ℕ} {text : List Char} :
    pad left m text = pad left n text ↔ max m text.length = max n text.length := by
  constructor
  · intro h
    have hlen := congrArg List.length h
    rwa [length_pad, length_pad] at hlen
  · intro h
    have hblank : m - text.length = n - text.length := by omega
    rw [pad, pad, hblank]

/-- A padded text is blank where the text is blank and fits in. -/
theorem pad_eq_blanks {left : Bool} {width : ℕ} {text : List Char} :
    pad left width text = pad left width [] ↔ text.length ≤ width ∧ ink text = [] := by
  constructor
  · intro h
    have hlen := congrArg List.length h
    have hink := congrArg ink h
    rw [length_pad, length_pad, List.length_nil] at hlen
    rw [ink_pad, ink_pad] at hink
    exact ⟨by omega, hink⟩
  · rintro ⟨hle, hink⟩
    have hblank : text = List.replicate text.length ' ' :=
      List.eq_replicate_iff.mpr ⟨rfl, ink_eq_nil_iff.mp hink⟩
    have hsum : width - text.length + text.length = width := by omega
    have hsum' : text.length + (width - text.length) = width := by omega
    unfold pad
    rw [hblank]
    cases left <;> simp [List.replicate_append_replicate, hsum, hsum']

end Numerals
