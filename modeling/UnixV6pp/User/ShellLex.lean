import UnixV6pp.User.CommandTree

/-!
# The words and operators of a command line

## Main definitions

* `Symbol`, `symbols` — the line with its escapes resolved, from the left.
* `lex` — the tokens of the line.
* `pieceLen` — how much of the line belongs to the word it starts with.
* `run`, `WellEscaped` — the backslashes at the end of a text; the lines whose operators can be
  judged by the character in front.

## Main results

* `lex_eq` — the first word, and what comes behind it.
* `symbols_piece`, `copied_longer` — the text of the first word, and of more than that.
-/

namespace UnixV6pp
namespace Shell

/-- `IsKeyToken`. -/
def isKeyToken (ch : Char) : Bool :=
  ch = ';' || ch = '|' || ch = '&' || ch = '>' || ch = '<' || ch = '(' || ch = ')'

/-- What a backslash can stand in front of. -/
def escapable (ch : Char) : Bool := isKeyToken ch || ch = '\\'

/-! ### The grammar -/

inductive Symbol
  /-- A character of a word. -/
  | char (ch : Char)
  | blank
  | op (ch : Char)
deriving DecidableEq

/-- A character that is not escaped. -/
def symbol (ch : Char) : Symbol :=
  if isKeyToken ch then .op ch else if ch = ' ' then .blank else .char ch

/-- A backslash and what it can stand in front of are one character. -/
def symbols : List Char → List Symbol
  | [] => []
  | [c] => [symbol c]
  | c :: d :: cs =>
    if c = '\\' ∧ escapable d then .char d :: symbols cs else symbol c :: symbols (d :: cs)

/-- A word, if there is any. -/
def word (w : List Char) : List Token := if w = [] then [] else [w]

/-- The tokens, where `w` has been read of a word. -/
def group (w : List Char) : List Symbol → List Token
  | [] => word w
  | .char c :: ss => group (w ++ [c]) ss
  | .blank :: ss => word w ++ group [] ss
  | .op c :: ss => word w ++ [c] :: group [] ss

/-- The tokens of a line. -/
def lex (s : List Char) : List Token := group [] (symbols s)

/-! ### The first word -/

/-- The number of characters up to the end of the word; `esc`: an unescaped backslash is in
front. -/
def pieceLen : Bool → List Char → ℕ
  | _, [] => 0
  | true, c :: cs =>
    if escapable c then pieceLen false cs + 1 else if c = ' ' then 0 else pieceLen false cs + 1
  | false, c :: cs =>
    if isKeyToken c ∨ c = ' ' then 0 else pieceLen (c = '\\') cs + 1

/-- The text of the first `n` characters, or of one more if the last of them is a backslash that
escapes it. -/
def copied : ℕ → List Char → List Char
  | 0, _ => []
  | _ + 1, [] => []
  | _ + 1, [c] => [c]
  | n + 1, c :: d :: cs =>
    if c = '\\' ∧ escapable d then d :: copied (n - 1) cs else c :: copied n (d :: cs)

/-! ### The lines that are split right -/

/-- The number of backslashes at the end. -/
def run (l : List Char) : ℕ := (l.reverse.takeWhile (· = '\\')).length

/-- An operator `c` between `l` and `r` is not the first character of the line; it is not behind an
even number of backslashes, if there are any; and if it is escaped, another character of the word
follows, which is no operator. -/
def OperatorOk (l : List Char) (c : Char) (r : List Char) : Prop :=
  isKeyToken c → l ≠ [] ∧
    (run l = 0 ∨ run l % 2 = 1 ∧ ∃ d r', r = d :: r' ∧ ¬isKeyToken d ∧ d ≠ ' ')

/-- All operators of `r` are of this kind, where `l` is in front. -/
def OperatorsOk (l r : List Char) : Prop :=
  ∀ m c r', r = m ++ c :: r' → OperatorOk (l ++ m) c r'

/-- All operators of the line. -/
def WellEscaped (s : List Char) : Prop := OperatorsOk [] s

/-! ### Lemmas -/

variable {c d : Char} {l r : List Char}

@[simp] theorem isKeyToken_backslash : isKeyToken '\\' = false := by decide

@[simp] theorem isKeyToken_blank : isKeyToken ' ' = false := by decide

@[simp] theorem escapable_blank : escapable ' ' = false := by decide

@[simp] theorem run_nil : run [] = 0 := rfl

theorem run_snoc (l : List Char) (c : Char) :
    run (l ++ [c]) = if c = '\\' then run l + 1 else 0 := by
  unfold run
  rw [List.reverse_append, List.reverse_singleton, List.singleton_append]
  by_cases hc : c = '\\'
  · simp [hc]
  · simp [hc]

theorem run_snoc_of_ne (l : List Char) (hc : c ≠ '\\') : run (l ++ [c]) = 0 := by
  rw [run_snoc, if_neg hc]

theorem symbols_op (hc : isKeyToken c) (r : List Char) : symbols (c :: r) = .op c :: symbols r := by
  have hne : c ≠ '\\' := by
    rintro rfl
    simp at hc
  cases r with
  | nil => simp [symbols, symbol, hc]
  | cons d r => simp [symbols, symbol, hc, hne]

theorem symbols_blank (r : List Char) : symbols (' ' :: r) = .blank :: symbols r := by
  cases r with
  | nil => simp [symbols, symbol]
  | cons d r => simp [symbols, symbol]

theorem group_chars (w t : List Char) (ss : List Symbol) :
    group w (t.map .char ++ ss) = group (w ++ t) ss := by
  induction t generalizing w with
  | nil => simp
  | cons c t ih => simp [group, ih]

/-- An unescaped backslash that escapes nothing is a character of its own. -/
theorem pieceLen_esc (hd : ¬escapable d) (cs : List Char) :
    pieceLen true (d :: cs) = pieceLen false (d :: cs) := by
  have hop : isKeyToken d = false ∧ d ≠ '\\' := by simpa [escapable] using hd
  by_cases hblank : d = ' '
  · simp [pieceLen, hblank]
  · simp [pieceLen, hd, hop, hblank]

/-- How a text of two characters or more begins: with no word, with an escape, or with a character
that stands for itself. -/
theorem pieceLen_cases (c d : Char) (cs : List Char) :
    (isKeyToken c ∨ c = ' ') ∧ pieceLen false (c :: d :: cs) = 0 ∨
    (c = '\\' ∧ escapable d) ∧ pieceLen false (c :: d :: cs) = pieceLen false cs + 2 ∨
    ¬(c = '\\' ∧ escapable d) ∧ symbol c = .char c ∧
      pieceLen false (c :: d :: cs) = pieceLen false (d :: cs) + 1 := by
  by_cases hend : isKeyToken c ∨ c = ' '
  · exact .inl ⟨hend, by simp [pieceLen, hend]⟩
  have hplain : isKeyToken c = false ∧ c ≠ ' ' := by simpa using hend
  by_cases hesc : c = '\\' ∧ escapable d
  · exact .inr (.inl ⟨hesc, by simp [pieceLen, hesc]⟩)
  · refine .inr (.inr ⟨hesc, by simp [symbol, hplain], ?_⟩)
    rw [pieceLen, if_neg hend]
    by_cases hc : c = '\\'
    · rw [decide_eq_true hc, pieceLen_esc (fun hd => hesc ⟨hc, hd⟩)]
    · rw [decide_eq_false hc]

theorem pieceLen_le : ∀ r : List Char, pieceLen false r ≤ r.length
  | [] => Nat.le_refl _
  | [c] => by
    rw [pieceLen]
    split <;> simp [pieceLen]
  | c :: d :: cs => by
    have hcs := pieceLen_le cs
    have hdcs := pieceLen_le (d :: cs)
    simp only [List.length_cons] at hdcs ⊢
    rcases pieceLen_cases c d cs with ⟨-, hlen⟩ | ⟨-, hlen⟩ | ⟨-, -, hlen⟩ <;> omega

/-- **The line is the first word**, without its escapes, and the rest. -/
theorem symbols_piece : ∀ r : List Char, symbols r =
    (copied (pieceLen false r) r).map .char ++ symbols (r.drop (pieceLen false r))
  | [] => rfl
  | [c] => by
    by_cases hend : isKeyToken c ∨ c = ' '
    · simp [pieceLen, hend, copied]
    · have hplain : isKeyToken c = false ∧ c ≠ ' ' := by simpa using hend
      simp [pieceLen, copied, symbols, symbol, hplain]
  | c :: d :: cs => by
    rcases pieceLen_cases c d cs with ⟨-, hlen⟩ | ⟨hesc, hlen⟩ | ⟨hesc, hsymbol, hlen⟩
    · rw [hlen]
      rfl
    · have ih := symbols_piece cs
      rw [hlen, copied, symbols, if_pos hesc, if_pos hesc, ih]
      simp
    · have ih := symbols_piece (d :: cs)
      rw [hlen, copied, symbols, if_neg hesc, if_neg hesc, hsymbol, ih]
      simp

/-- Whoever takes more than the first word has more text. -/
theorem copied_longer : ∀ (r : List Char) (n : ℕ), pieceLen false r < n → n ≤ r.length →
    ∃ x more, copied n r = copied (pieceLen false r) r ++ x :: more
  | [], n, hlt, hle => by
    rw [List.length_nil] at hle
    omega
  | [c], n, hlt, hle => by
    rw [List.length_singleton] at hle
    have hzero : pieceLen false [c] = 0 := by omega
    rw [hzero, show n = 1 by omega]
    exact ⟨c, [], rfl⟩
  | c :: d :: cs, 0, hlt, _ => absurd hlt (Nat.not_lt_zero _)
  | c :: d :: cs, n + 1, hlt, hle => by
    simp only [List.length_cons] at hle
    rcases pieceLen_cases c d cs with ⟨-, hlen⟩ | ⟨hesc, hlen⟩ | ⟨hesc, -, hlen⟩
    · rw [hlen, copied, copied]
      split
      · exact ⟨d, copied (n - 1) cs, rfl⟩
      · exact ⟨c, copied n (d :: cs), rfl⟩
    · rw [hlen] at hlt ⊢
      obtain ⟨x, more, hmore⟩ := copied_longer cs (n - 1) (by omega) (by omega)
      refine ⟨x, more, ?_⟩
      rw [copied, copied, if_pos hesc, if_pos hesc, hmore]
      rfl
    · rw [hlen] at hlt ⊢
      obtain ⟨x, more, hmore⟩ := copied_longer (d :: cs) n (by omega) (by simpa using hle)
      refine ⟨x, more, ?_⟩
      rw [copied, copied, if_neg hesc, if_neg hesc, hmore]
      rfl

theorem mem_of_mem_copied {x : Char} : ∀ (n : ℕ) (r : List Char), x ∈ copied n r → x ∈ r
  | 0, _, h => by simp [copied] at h
  | _ + 1, [], h => by simp [copied] at h
  | _ + 1, [c], h => h
  | n + 1, c :: d :: cs, h => by
    rw [copied] at h
    split at h
    · rcases List.mem_cons.mp h with rfl | h
      · simp
      · exact List.mem_cons_of_mem _ (List.mem_cons_of_mem _ (mem_of_mem_copied _ _ h))
    · rcases List.mem_cons.mp h with rfl | h
      · simp
      · exact List.mem_cons_of_mem _ (mem_of_mem_copied _ _ h)

theorem length_copied_le : ∀ (n : ℕ) (r : List Char), (copied n r).length ≤ n
  | 0, _ => by simp [copied]
  | _ + 1, [] => Nat.zero_le _
  | _ + 1, [c] => by simp [copied]
  | n + 1, c :: d :: cs => by
    rw [copied]
    split
    · have ih := length_copied_le (n - 1) cs
      rw [List.length_cons]
      omega
    · have ih := length_copied_le n (d :: cs)
      rw [List.length_cons]
      omega

/-! ### The tokens, word by word -/

/-- The tokens of what comes behind a word. -/
def lexTail : List Char → List Token
  | [] => []
  | c :: r => (if isKeyToken c then [[c]] else []) ++ lex r

/-- What comes behind a word begins with an operator or a blank. -/
theorem drop_pieceLen : ∀ r : List Char, r.drop (pieceLen false r) = [] ∨
    ∃ c r', r.drop (pieceLen false r) = c :: r' ∧ (isKeyToken c ∨ c = ' ')
  | [] => .inl rfl
  | [c] => by
    by_cases hend : isKeyToken c ∨ c = ' '
    · exact .inr ⟨c, [], by simp [pieceLen, hend], hend⟩
    · exact .inl (by simp [pieceLen, hend])
  | c :: d :: cs => by
    rcases pieceLen_cases c d cs with ⟨hend, hlen⟩ | ⟨-, hlen⟩ | ⟨-, -, hlen⟩
    · exact .inr ⟨c, d :: cs, by rw [hlen]; rfl, hend⟩
    · rw [hlen]
      exact drop_pieceLen cs
    · rw [hlen]
      exact drop_pieceLen (d :: cs)

theorem lex_blank (r : List Char) : lex (' ' :: r) = lex r := by
  rw [lex, symbols_blank]
  rfl

/-- **The first word**, and what comes behind it. -/
theorem lex_eq (r : List Char) :
    lex r = word (copied (pieceLen false r) r) ++ lexTail (r.drop (pieceLen false r)) := by
  rw [lex, symbols_piece, group_chars, List.nil_append]
  rcases drop_pieceLen r with hnil | ⟨c, r', hcons, hop | rfl⟩
  · rw [hnil]
    exact (List.append_nil _).symm
  · rw [hcons, symbols_op hop, lexTail, if_pos hop]
    rfl
  · rw [hcons, symbols_blank]
    rfl

/-- The character of a symbol of the line, if it is no blank. -/
def Symbol.chars : Symbol → List Char
  | .char c => [c]
  | .blank => []
  | .op c => [c]

theorem mem_of_mem_symbol {x : Char} (h : x ∈ (symbol c).chars) : x = c := by
  unfold symbol at h
  split_ifs at h
  · exact List.mem_singleton.mp h
  · exact absurd h List.not_mem_nil
  · exact List.mem_singleton.mp h

theorem mem_of_mem_symbols {x : Char} : ∀ s : List Char,
    x ∈ (symbols s).flatMap Symbol.chars → x ∈ s
  | [], h => h
  | [c], h => by
    rw [symbols, List.flatMap_cons, List.flatMap_nil, List.append_nil] at h
    exact List.mem_singleton.mpr (mem_of_mem_symbol h)
  | c :: d :: cs, h => by
    rw [symbols] at h
    split at h
    · rw [List.flatMap_cons] at h
      rcases List.mem_append.mp h with h | h
      · rw [List.mem_singleton.mp h]
        simp
      · exact List.mem_cons_of_mem _ (List.mem_cons_of_mem _ (mem_of_mem_symbols cs h))
    · rw [List.flatMap_cons] at h
      rcases List.mem_append.mp h with h | h
      · rw [mem_of_mem_symbol h]
        simp
      · exact List.mem_cons_of_mem _ (mem_of_mem_symbols (d :: cs) h)

theorem mem_of_mem_group {x : Char} {t : Token} (hx : x ∈ t) {w : List Char} {ss : List Symbol}
    (h : t ∈ group w ss) : x ∈ w ∨ x ∈ ss.flatMap Symbol.chars := by
  have hword : ∀ w : List Char, t ∈ word w → x ∈ w := by
    intro w hw
    unfold word at hw
    split at hw
    · cases hw
    · rwa [← List.mem_singleton.mp hw]
  induction ss generalizing w with
  | nil => exact .inl (hword w h)
  | cons y ss ih =>
    rw [List.flatMap_cons, List.mem_append]
    rcases y with c | _ | c
    · rcases ih h with hw | hss
      · rcases List.mem_append.mp hw with hw | hc
        · exact .inl hw
        · exact .inr (.inl hc)
      · exact .inr (.inr hss)
    · rcases List.mem_append.mp h with hw | hg
      · exact .inl (hword w hw)
      · exact .inr (.inr ((ih hg).resolve_left List.not_mem_nil))
    · rcases List.mem_append.mp h with hw | hg
      · exact .inl (hword w hw)
      · rcases List.mem_cons.mp hg with rfl | hg
        · exact .inr (.inl hx)
        · exact .inr (.inr ((ih hg).resolve_left List.not_mem_nil))

/-- The tokens have no other characters than the line. -/
theorem mem_of_mem_lex {x : Char} {t : Token} {s : List Char} (ht : t ∈ lex s) (hx : x ∈ t) :
    x ∈ s :=
  mem_of_mem_symbols s ((mem_of_mem_group hx ht).resolve_left List.not_mem_nil)

/-! ### The condition, character by character -/

theorem operatorOk_of_not (h : ¬isKeyToken c) : OperatorOk l c r := fun hc => absurd hc h

theorem operatorsOk_nil : OperatorsOk l [] := by
  intro m c r' h
  cases m <;> cases h

theorem operatorsOk_cons :
    OperatorsOk l (c :: r) ↔ OperatorOk l c r ∧ OperatorsOk (l ++ [c]) r := by
  constructor
  · intro h
    refine ⟨by simpa using h [] c r rfl, fun m x r' heq => ?_⟩
    have hm := h (c :: m) x r' (by rw [heq]; rfl)
    rwa [List.append_assoc]
  · rintro ⟨hc, hr⟩ m x r' heq
    rcases m with _ | ⟨y, m⟩
    · obtain ⟨rfl, rfl⟩ := List.cons.inj heq
      simpa using hc
    · obtain ⟨rfl, htail⟩ := List.cons.inj heq
      have hm := hr m x r' htail
      rwa [List.append_assoc] at hm

theorem operatorsOk_plain (h : ¬isKeyToken c) :
    OperatorsOk l (c :: r) ↔ OperatorsOk (l ++ [c]) r := by
  rw [operatorsOk_cons]
  exact and_iff_right (operatorOk_of_not h)

end Shell
end UnixV6pp
