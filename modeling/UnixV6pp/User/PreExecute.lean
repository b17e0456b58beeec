import UnixV6pp.User.ShellLex
import UnixV6pp.Lib.Fallible

/-!
# The tokenizer of the shell

`SpiltCommand` lets `NextKeyToken` look for the end of a word and copies the word.  `NextKeyToken`
takes every operator behind a backslash for escaped, and goes on two characters later.

A pointer into the input is an index, and one into `line` is one, too.  A read outside of the input
stops the model, and a write outside of `args` or `line` does.

## Main definitions

* `nextKeyToken`, `trimLeft`, `copyPiece`, `spiltLoop`, `spiltCommand` — the functions; each loop
  makes at most `turns` turns.

## Main results

* `nextKeyToken_scan` — **where a word is taken to end**: where it ends, if its operators can be
  judged by the character in front, and else behind that, if anywhere.
* `trimLeft_eq`, `copyPiece_eq` — what the other two loops do.
-/

namespace UnixV6pp
namespace Shell

/-- The end of a string. -/
def NUL : Char := '\x00'

/-- The size of `args`. -/
def ARGS_SIZE : ℕ := 50

/-- The size of `line`. -/
def LINE_SIZE : ℕ := 1000

/-- Why the model stops. -/
inductive Stop
  /-- A read outside of the input. -/
  | input
  /-- A write outside of `args`. -/
  | args
  /-- A write outside of `line`. -/
  | line
  /-- A loop has made all its turns. -/
  | turns
deriving DecidableEq

/-! ### The functions -/

/-- `*p`. -/
def load (s : List Char) (p : ℕ) : Except Stop Char :=
  if p < s.length then .ok (s.getD p NUL) else if p = s.length then .ok NUL else .error .input

/-- `*(p-1)`. -/
def loadBefore (s : List Char) : ℕ → Except Stop Char
  | 0 => .error .input
  | p + 1 => load s p

/-- `NextKeyToken`. -/
def nextKeyToken (s : List Char) : ℕ → ℕ → Except Stop ℕ
  | 0, _ => .error .turns
  | turns + 1, p => do
    let ch ← load s p
    if ch = NUL then .ok p
    else if isKeyToken ch then do
      let before ← loadBefore s p
      if before = '\\' then nextKeyToken s turns (p + 2) else .ok p
    else if ch = ' ' then .ok p
    else nextKeyToken s turns (p + 1)

/-- `TrimLeft`. -/
def trimLeft (s : List Char) : ℕ → ℕ → Except Stop ℕ
  | 0, _ => .error .turns
  | turns + 1, p => do
    let ch ← load s p
    if ch = ' ' ∧ ch ≠ NUL then trimLeft s turns (p + 1) else .ok p

/-- The part of `args` that is set, and of `line`. -/
structure Lists where
  args : List ℕ
  line : List Char
deriving DecidableEq

namespace Lists

/-- `args[ nargs++ ] = pline`. -/
def newArg (o : Lists) : Except Stop Lists :=
  if o.args.length < ARGS_SIZE then .ok { o with args := o.args ++ [o.line.length] }
  else .error .args

/-- `*pline++ = ch`. -/
def put (o : Lists) (ch : Char) : Except Stop Lists :=
  if o.line.length < LINE_SIZE then .ok { o with line := o.line ++ [ch] } else .error .line

/-- The strings that `args` points to. -/
def tokens (o : Lists) : List Token :=
  o.args.map fun p => (o.line.drop p).takeWhile (· ≠ NUL)

end Lists

/-- The loop of `SpiltCommand` that copies a word. -/
def copyPiece (s : List Char) (pKeyToken : ℕ) : ℕ → ℕ → Lists → Except Stop Lists
  | 0, _, _ => .error .turns
  | turns + 1, pinput, o =>
    if pinput < pKeyToken then do
      let ch ← load s pinput
      let skip ← if ch = '\\' then (load s (pinput + 1)).map escapable else .ok false
      let pinput := if skip then pinput + 1 else pinput
      let ch ← load s pinput
      let o ← o.put ch
      copyPiece s pKeyToken turns (pinput + 1) o
    else .ok o

/-- The loop of `SpiltCommand`. -/
def spiltLoop (s : List Char) (turns : ℕ) : ℕ → ℕ → ℕ → Lists → Except Stop Lists
  | 0, _, _, _ => .error .turns
  | n + 1, pinput, pKeyToken, o => do
    let ch ← load s pKeyToken
    if ch = NUL then .ok o
    else do
      let pinput ← trimLeft s turns pinput
      let pKeyToken ← nextKeyToken s turns pinput
      let o ← if pinput < pKeyToken then do
          let o ← o.newArg
          let o ← copyPiece s pKeyToken turns pinput o
          o.put NUL
        else .ok o
      let ch ← load s pKeyToken
      let o ← if isKeyToken ch then do
          let o ← o.newArg
          let o ← o.put ch
          o.put NUL
        else .ok o
      spiltLoop s turns n (pKeyToken + 1) pKeyToken o

/-- `SpiltCommand`; it returns the number of `args`. -/
def spiltCommand (turns : ℕ) (s : List Char) : Except Stop Lists :=
  spiltLoop s turns turns 0 0 ⟨[], []⟩

/-! ### Reads -/

section Loads

variable {s l r : List Char} {c : Char}

theorem load_end (h : s = l) : load s l.length = .ok NUL := by
  subst h
  simp [load]

theorem load_append (h : s = l ++ c :: r) : load s l.length = .ok c := by
  subst h
  simp [load]

theorem load_succ (h : s = l ++ c :: r) : load s (l.length + 1) = .ok (r.headD NUL) := by
  have h' : s = (l ++ [c]) ++ r := by rw [h, List.append_assoc]; rfl
  have hlen : (l ++ [c]).length = l.length + 1 := by simp
  rw [← hlen]
  cases r with
  | nil => exact load_end (by rw [h', List.append_nil])
  | cons d r => exact load_append h'

/-- Nothing is read two places behind the end. -/
theorem load_outside {p : ℕ} (h : s.length < p) : load s p = .error .input := by
  rw [load, if_neg (by omega), if_neg (by omega)]

theorem load_le {p : ℕ} (h : load s p = .ok c) : p ≤ s.length := by
  by_contra hlt
  rw [load_outside (by omega)] at h
  cases h

/-- The character in front, if there is one, tells whether there are backslashes. -/
theorem loadBefore_eq (h : s = l ++ r) : l = [] ∧ loadBefore s l.length = .error .input ∨
    l ≠ [] ∧ ∃ b, loadBefore s l.length = .ok b ∧ (b = '\\' ↔ run l ≠ 0) := by
  rcases l.eq_nil_or_concat with rfl | ⟨m, b, rfl⟩
  · exact .inl ⟨rfl, rfl⟩
  · rw [List.concat_eq_append] at h ⊢
    refine .inr ⟨by simp, b, ?_, ?_⟩
    · rw [List.length_append, List.length_singleton]
      exact load_append (h.trans (List.append_assoc ..))
    · rw [run_snoc]
      split <;> simp [*]

end Loads

/-! ### The end of a word -/

section Scan

variable {s l r : List Char} {c : Char} {turns : ℕ}

theorem nextKeyToken_cons (hs : s = l ++ c :: r) (hc : c ≠ NUL) :
    nextKeyToken s (turns + 1) l.length =
      if isKeyToken c then do
        let before ← loadBefore s l.length
        if before = '\\' then nextKeyToken s turns (l.length + 2) else .ok l.length
      else if c = ' ' then .ok l.length
      else nextKeyToken s turns (l.length + 1) := by
  rw [nextKeyToken, load_append hs, Except.ok_bind, if_neg hc]

theorem le_of_nextKeyToken {p q : ℕ} (h : nextKeyToken s turns p = .ok q) : p ≤ q := by
  induction turns generalizing p with
  | zero => cases h
  | succ turns ih =>
    rw [nextKeyToken, Except.bind_eq_ok] at h
    obtain ⟨ch, -, h⟩ := h
    split_ifs at h
    · cases h
      exact Nat.le_refl _
    · obtain ⟨before, -, h⟩ := Except.bind_eq_ok.mp h
      split at h
      · exact Nat.le_of_add_right_le (ih h)
      · cases h
        exact Nat.le_refl _
    · cases h
      exact Nat.le_refl _
    · exact Nat.le_of_succ_le (ih h)

/-- Where the word is taken to end that goes on with `r`: where it does, and then its operators are
right; or else one of its operators is not, and the word does not end or is too long. -/
def Scanned (l r : List Char) (result : Except Stop ℕ) : Prop :=
  let k := pieceLen (run l % 2 = 1) r
  result = .ok (l.length + k) ∧
      (OperatorsOk l r ↔ OperatorsOk (l ++ r.take (k + 1)) (r.drop (k + 1))) ∨
    ¬OperatorsOk l r ∧ ∀ q, result = .ok q → l.length + k < q ∧ (0 < k ∨ 0 < run l)

/-- A character of the word more. -/
theorem Scanned.cons {result : Except Stop ℕ} (h : Scanned (l ++ [c]) r result)
    (hc : OperatorOk l c r)
    (hlen : pieceLen (run l % 2 = 1) (c :: r) = pieceLen (run (l ++ [c]) % 2 = 1) r + 1) :
    Scanned l (c :: r) result := by
  unfold Scanned at h ⊢
  dsimp only at h ⊢
  rw [hlen, operatorsOk_cons, and_iff_right hc]
  generalize pieceLen (run (l ++ [c]) % 2 = 1) r = k at h
  rw [List.length_append, List.length_singleton, List.append_assoc] at h
  rcases h with ⟨hres, hiff⟩ | ⟨hbad, hres⟩
  · exact .inl ⟨by rw [hres]; congr 1; omega, hiff⟩
  · refine .inr ⟨hbad, fun q hq => ?_⟩
    have hq' := (hres q hq).1
    omega

/-- A character that is no operator and no blank belongs to the word. -/
theorem pieceLen_run (l : List Char) (hop : ¬isKeyToken c) (hblank : c ≠ ' ') (r : List Char) :
    pieceLen (run l % 2 = 1) (c :: r) = pieceLen (run (l ++ [c]) % 2 = 1) r + 1 := by
  rw [run_snoc]
  by_cases hodd : run l % 2 = 1
  · rw [decide_eq_true hodd]
    by_cases hc : c = '\\'
    · have heven : ¬(run l + 1) % 2 = 1 := by omega
      rw [if_pos hc, decide_eq_false heven]
      simp [pieceLen, escapable, hc]
    · rw [if_neg hc]
      simp [pieceLen, escapable, hop, hc, hblank]
  · rw [decide_eq_false hodd, pieceLen, if_neg (by simp [hop, hblank])]
    by_cases hc : c = '\\'
    · have hodd' : (run l + 1) % 2 = 1 := by omega
      rw [if_pos hc, decide_eq_true hc, decide_eq_true hodd']
    · rw [if_neg hc, decide_eq_false hc]
      rfl

/-- An escaped operator, and the character behind it. -/
theorem pieceLen_escaped (hop : isKeyToken c) (hodd : run l % 2 = 1) (r : List Char) :
    pieceLen (run l % 2 = 1) (c :: r) = pieceLen (run (l ++ [c]) % 2 = 1) r + 1 := by
  have hc : c ≠ '\\' := by
    rintro rfl
    simp at hop
  rw [run_snoc_of_ne l hc, decide_eq_true hodd]
  simp [pieceLen, escapable, hop]

/-- An operator: behind a backslash it and the next character are passed over. -/
theorem Scanned.operator (hs : s = l ++ c :: r) (hop : isKeyToken c) (hturns : 0 < turns)
    (hrest : ∀ d r', r = d :: r' →
      Scanned (l ++ [c] ++ [d]) r' (nextKeyToken s turns (l.length + 2))) :
    Scanned l (c :: r) (do
      let before ← loadBefore s l.length
      if before = '\\' then nextKeyToken s turns (l.length + 2) else .ok l.length) := by
  rcases loadBefore_eq hs with ⟨hnil, hbefore⟩ | ⟨hne, b, hbefore, hb⟩
  · -- the character in front of the line
    rw [hbefore]
    exact .inr ⟨fun h => (operatorsOk_cons.mp h).1 hop |>.1 hnil, fun _ hq => by cases hq⟩
  rw [hbefore, Except.ok_bind]
  by_cases hrun : run l = 0
  · have hzero : pieceLen (run l % 2 = 1) (c :: r) = 0 := by simp [hrun, pieceLen, hop]
    have hok : OperatorOk l c r := fun _ => ⟨hne, .inl hrun⟩
    rw [if_neg (fun h => hb.mp h hrun)]
    refine .inl ⟨by rw [hzero]; rfl, ?_⟩
    rw [hzero, operatorsOk_cons, and_iff_right hok]
    rfl
  rw [if_pos (hb.mpr hrun)]
  have hge : ∀ q, nextKeyToken s turns (l.length + 2) = .ok q → l.length + 2 ≤ q :=
    fun q hq => le_of_nextKeyToken hq
  by_cases hodd : run l % 2 = 1
  · have hlen := pieceLen_escaped hop hodd r
    rcases r with _ | ⟨d, r⟩
    · -- the end of the line is passed over
      have hend : s.length < l.length + 2 := by rw [hs]; simp
      obtain ⟨turns, rfl⟩ : ∃ t, turns = t + 1 := ⟨turns - 1, by omega⟩
      rw [nextKeyToken, load_outside hend]
      refine .inr ⟨fun h => ?_, fun _ hq => by cases hq⟩
      rcases ((operatorsOk_cons.mp h).1 hop).2 with hzero | ⟨-, d, r', hcons, -⟩
      · exact hrun hzero
      · cases hcons
    by_cases hd : ¬isKeyToken d ∧ d ≠ ' '
    · exact ((hrest d r rfl).cons (operatorOk_of_not hd.1)
        (pieceLen_run _ hd.1 hd.2 r)).cons (fun _ => ⟨hne, .inr ⟨hodd, d, r, rfl, hd⟩⟩) hlen
    · -- the end of the word is passed over
      refine .inr ⟨fun h => ?_, fun q hq => ?_⟩
      · rcases ((operatorsOk_cons.mp h).1 hop).2 with hzero | ⟨-, d, r', hcons, hd'⟩
        · exact hrun hzero
        · obtain ⟨rfl, -⟩ := List.cons.inj hcons
          exact hd hd'
      · have hzero : pieceLen (run (l ++ [c]) % 2 = 1) (d :: r) = 0 := by
          have hne' : c ≠ '\\' := by
            rintro rfl
            simp at hop
          have hd' : isKeyToken d ∨ d = ' ' := by
            by_contra hno
            exact hd (not_or.mp hno)
          rw [run_snoc_of_ne l hne']
          simp [pieceLen, hd']
        have hq' := hge q hq
        rw [hlen, hzero]
        omega
  · -- an operator behind escaped backslashes is taken for escaped
    have hzero : pieceLen (run l % 2 = 1) (c :: r) = 0 := by simp [hodd, pieceLen, hop]
    refine .inr ⟨fun h => ?_, fun q hq => ?_⟩
    · rcases ((operatorsOk_cons.mp h).1 hop).2 with hno | ⟨hyes, -⟩
      · exact hrun hno
      · exact hodd hyes
    · have hq' := hge q hq
      rw [hzero]
      omega

/-- **Where `NextKeyToken` takes a word to end.** -/
theorem nextKeyToken_scan {n : ℕ} : ∀ {l r : List Char} {turns : ℕ}, r.length ≤ n → s = l ++ r →
    NUL ∉ r → r.length + 2 ≤ turns → Scanned l r (nextKeyToken s turns l.length) := by
  induction n using Nat.strongRecOn with
  | ind n ih =>
  intro l r turns hn hs hnul hturns
  obtain ⟨turns, rfl⟩ : ∃ t, turns = t + 1 := ⟨turns - 1, by omega⟩
  rcases r with _ | ⟨c, r⟩
  · refine .inl ⟨?_, ?_⟩
    · rw [nextKeyToken, load_end (hs.trans (List.append_nil l))]
      simp [pieceLen]
    · simp [operatorsOk_nil]
  have hc : c ≠ NUL := fun heq => hnul (heq ▸ List.mem_cons_self)
  have hr : NUL ∉ r := fun hmem => hnul (List.mem_cons_of_mem _ hmem)
  rw [List.length_cons] at hn hturns
  rw [nextKeyToken_cons hs hc]
  by_cases hop : isKeyToken c
  · rw [if_pos hop]
    refine Scanned.operator hs hop (by omega) ?_
    rintro d r' rfl
    rw [List.length_cons] at hn hturns
    have hscan := @ih (n - 1) (by omega) (l ++ [c] ++ [d]) r' turns (by omega)
      (by rw [hs]; simp) (fun hmem => hr (List.mem_cons_of_mem _ hmem)) (by omega)
    rwa [List.length_append, List.length_append] at hscan
  rw [if_neg hop]
  by_cases hblank : c = ' '
  · have hzero : pieceLen (run l % 2 = 1) (c :: r) = 0 := by
      cases decide (run l % 2 = 1) <;> simp [pieceLen, hblank]
    rw [if_pos hblank]
    refine .inl ⟨by rw [hzero]; rfl, ?_⟩
    rw [hzero, operatorsOk_plain hop]
    rfl
  · rw [if_neg hblank]
    have hscan := @ih (n - 1) (by omega) (l ++ [c]) r turns (by omega) (by rw [hs]; simp) hr
      (by omega)
    rw [List.length_append] at hscan
    exact hscan.cons (operatorOk_of_not hop) (pieceLen_run l hop hblank r)

end Scan

/-! ### Blanks, and the text of a word -/

section Copy

variable {s l r : List Char} {c : Char} {turns : ℕ}

theorem trimLeft_eq (hs : s = l ++ r) (hturns : r.length < turns) :
    trimLeft s turns l.length = .ok (l.length + (r.takeWhile (· = ' ')).length) := by
  induction r generalizing l turns with
  | nil =>
    obtain ⟨turns, rfl⟩ : ∃ t, turns = t + 1 := ⟨turns - 1, by omega⟩
    have hnul : ¬(NUL = ' ' ∧ NUL ≠ NUL) := fun h => h.2 rfl
    rw [trimLeft, load_end (hs.trans (List.append_nil l)), Except.ok_bind, if_neg hnul]
    rfl
  | cons c r ih =>
    obtain ⟨turns, rfl⟩ : ∃ t, turns = t + 1 := ⟨turns - 1, by omega⟩
    rw [trimLeft, load_append hs, Except.ok_bind]
    by_cases hc : c = ' '
    · have hblank : c = ' ' ∧ c ≠ NUL := ⟨hc, by rw [hc]; decide⟩
      rw [List.length_cons] at hturns
      have hnext := @ih (l ++ [c]) turns (by rw [hs]; simp) (by omega)
      rw [List.length_append, List.length_singleton] at hnext
      rw [if_pos hblank, hnext, List.takeWhile_cons_of_pos (by simpa using hc), List.length_cons]
      congr 1
      omega
    · rw [if_neg (fun h => hc h.1), List.takeWhile_cons_of_neg (by simpa using hc)]
      rfl

namespace Lists

/-- Some characters, one by one. -/
def puts (o : Lists) : List Char → Except Stop Lists
  | [] => .ok o
  | ch :: t => do
    let o ← o.put ch
    o.puts t

end Lists

theorem copyPiece_end {key p : ℕ} (h : key ≤ p) (o : Lists) (hturns : 0 < turns) :
    copyPiece s key turns p o = .ok o := by
  obtain ⟨turns, rfl⟩ : ∃ t, turns = t + 1 := ⟨turns - 1, by omega⟩
  rw [copyPiece, if_neg (by omega)]

theorem copyPiece_cons {key : ℕ} (hs : s = l ++ c :: r) (hlt : l.length < key) (o : Lists) :
    copyPiece s key (turns + 1) l.length o =
      if c = '\\' ∧ escapable (r.headD NUL) then
        o.put (r.headD NUL) >>= copyPiece s key turns (l.length + 2)
      else o.put c >>= copyPiece s key turns (l.length + 1) := by
  have hsucc := load_succ hs
  rw [copyPiece, if_pos hlt, load_append hs, Except.ok_bind]
  generalize r.headD NUL = d at hsucc ⊢
  by_cases hc : c = '\\'
  · by_cases hd : escapable d
    · simp [Except.map, hc, hd, hsucc]
    · simp [Except.map, hc, hd, hsucc, load_append hs]
  · simp [hc, load_append hs]

/-- The text of the first `n` characters is copied. -/
theorem copyPiece_eq : ∀ {r l : List Char} {n turns : ℕ} (o : Lists), s = l ++ r → n ≤ r.length →
    n < turns → copyPiece s (l.length + n) turns l.length o = o.puts (copied n r)
  | r, l, 0, turns, o, _, _, hturns => by
    rw [Nat.add_zero, copyPiece_end (Nat.le_refl _) o hturns, copied]
    rfl
  | [], l, n + 1, turns, o, _, hn, _ => absurd hn (Nat.not_succ_le_zero n)
  | [c], l, n + 1, turns + 1, o, hs, hn, hturns => by
    have hescape : ¬(c = '\\' ∧ escapable ([].headD NUL) = true) := fun h =>
      absurd h.2 (by decide)
    rw [copyPiece_cons hs (by omega), if_neg hescape, copied, Lists.puts]
    refine congrArg _ (funext fun o' => ?_)
    rw [List.length_singleton] at hn
    exact copyPiece_end (by omega) o' (by omega)
  | c :: d :: cs, l, n + 1, turns + 1, o, hs, hn, hturns => by
    rw [copyPiece_cons hs (by omega), List.headD_cons, copied]
    simp only [List.length_cons] at hn
    split
    · refine congrArg _ (funext fun o' => ?_)
      rcases n with _ | n
      · -- only the backslash belongs to the word
        rw [copyPiece_end (by omega) o' (by omega), copied]
        rfl
      · have hnext := @copyPiece_eq cs (l ++ [c, d]) n turns o' (by rw [hs]; simp) (by omega)
          (by omega)
        rw [List.length_append] at hnext
        rw [show l.length + (n + 1 + 1) = l.length + [c, d].length + n by simp; omega]
        exact hnext
    · refine congrArg _ (funext fun o' => ?_)
      have hnext := @copyPiece_eq (d :: cs) (l ++ [c]) n turns o' (by rw [hs]; simp)
        (by simpa using hn) (by omega)
      rw [List.length_append] at hnext
      rw [show l.length + (n + 1) = l.length + [c].length + n by simp; omega]
      exact hnext

end Copy

end Shell
end UnixV6pp
