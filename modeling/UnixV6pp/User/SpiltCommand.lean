import UnixV6pp.User.PreExecute
import Mathlib.Data.List.TakeWhile

/-!
# The tokens of a command line

Each turn of the loop of `SpiltCommand` stores a word and an operator, if there are any.  What is
stored stays, so that one word that is too long makes the tokens wrong, whatever comes later.

## Main definitions

* `InputLine`, `Splits` — the inputs, and what should come of one.
* `pack` — the arrays when they hold given tokens.

## Main results

* `spiltLoop_extends` — the loop only adds tokens.
* `spiltLoop_spec` — the loop, from any turn on.
* `spiltCommand_iff` — **the tokens are those of the grammar** exactly where the operators can be
  judged by the character in front, and there are at most fifty tokens.
* `exists_missplit` — an escaped backslash in front of an operator.
-/

namespace UnixV6pp
namespace Shell

/-! ### What is expected -/

/-- What fits into `lineInput`. -/
structure InputLine where
  chars : List Char
  noNul : NUL ∉ chars
  length_le : chars.length ≤ 511

/-- The function returns, without having left the input, `args` and `line`; and the tokens are those
of the grammar. -/
def Splits (input : InputLine) : Prop :=
  ∀ turns ≥ input.chars.length + 2,
    ∃ o, spiltCommand turns input.chars = .ok o ∧ o.tokens = lex input.chars

/-! ### The arrays -/

/-- The strings, one behind the other. -/
def flat (ts : List Token) : List Char := ts.flatMap (· ++ [NUL])

/-- The arrays when they hold the tokens. -/
def pack (ts : List Token) : Lists where
  args := (List.range ts.length).map fun i => (flat (ts.take i)).length
  line := flat ts

/-- `args[ nargs++ ] = pline`, the text, and its end. -/
def Lists.store (o : Lists) (t : Token) : Except Stop Lists := do
  let o ← o.newArg
  let o ← o.puts t
  o.put NUL

/-- Some tokens, one by one. -/
def Lists.stores (o : Lists) : List Token → Except Stop Lists
  | [] => .ok o
  | t :: ts => do
    let o ← o.store t
    o.stores ts

section Arrays

variable {ts us : List Token} {t : Token} {o o' : Lists}

theorem flat_append (ts us : List Token) : flat (ts ++ us) = flat ts ++ flat us :=
  List.flatMap_append

theorem flat_cons (t : Token) (ts : List Token) : flat (t :: ts) = t ++ NUL :: flat ts := by
  simp [flat]

theorem pack_snoc (ts : List Token) (t : Token) : pack (ts ++ [t]) =
    ⟨(pack ts).args ++ [(flat ts).length], flat ts ++ (t ++ [NUL])⟩ := by
  have hargs : (List.range ts.length).map (fun i => (flat ((ts ++ [t]).take i)).length) =
      (pack ts).args := by
    refine List.map_congr_left fun i hi => ?_
    rw [List.take_append_of_le_length (Nat.le_of_lt (List.mem_range.mp hi))]
  unfold pack
  rw [List.length_append, List.length_singleton, List.range_succ, List.map_append, hargs,
    List.map_singleton, List.take_left, flat_append, flat_cons]
  rfl

/-- **The tokens are read back.** -/
theorem tokens_pack (h : ∀ t ∈ ts, NUL ∉ t) : (pack ts).tokens = ts := by
  refine List.ext_getElem (by simp [Lists.tokens, pack]) fun i hi hi' => ?_
  have hsplit : ts = ts.take i ++ ts[i] :: ts.drop (i + 1) := by
    rw [← List.drop_eq_getElem_cons hi', List.take_append_drop]
  have hdrop : (flat ts).drop (flat (ts.take i)).length =
      ts[i] ++ NUL :: flat (ts.drop (i + 1)) := by
    conv_lhs => rw [hsplit]
    rw [flat_append, List.take_left' (by simp; omega), List.drop_left, flat_cons]
  have hpos : ∀ c ∈ ts[i], decide (c ≠ NUL) = true := fun c hc =>
    decide_eq_true fun heq => h _ (List.getElem_mem hi') (heq ▸ hc)
  simp only [Lists.tokens, pack, List.getElem_map, List.getElem_range]
  rw [hdrop, List.takeWhile_append_of_pos hpos, List.takeWhile_cons_of_neg (by simp),
    List.append_nil]

theorem puts_eq {t : List Char} (h : o.puts t = .ok o') :
    o' = { o with line := o.line ++ t } := by
  induction t generalizing o with
  | nil =>
    cases h
    rw [List.append_nil]
  | cons c t ih =>
    obtain ⟨o₁, hput, h⟩ := Except.bind_eq_ok.mp h
    unfold Lists.put at hput
    split at hput
    · cases hput
      rw [ih h, List.append_assoc]
      rfl
    · cases hput

theorem puts_of_le {t : List Char} (h : o.line.length + t.length ≤ LINE_SIZE) :
    o.puts t = .ok { o with line := o.line ++ t } := by
  induction t generalizing o with
  | nil => rw [List.append_nil]; rfl
  | cons c t ih =>
    rw [List.length_cons] at h
    rw [Lists.puts, Lists.put, if_pos (by omega), Except.ok_bind, ih, List.append_assoc]
    · rfl
    · rw [List.length_append, List.length_singleton]
      omega

theorem store_pack (h : (pack ts).store t = .ok o) : o = pack (ts ++ [t]) := by
  obtain ⟨o₁, hnew, h⟩ := Except.bind_eq_ok.mp h
  obtain ⟨o₂, hputs, hput⟩ := Except.bind_eq_ok.mp h
  unfold Lists.newArg at hnew
  unfold Lists.put at hput
  split at hnew
  · cases hnew
    split at hput
    · cases hput
      rw [puts_eq hputs, pack_snoc, List.append_assoc]
      rfl
    · cases hput
  · cases hnew

theorem length_args_pack (ts : List Token) : (pack ts).args.length = ts.length := by
  simp [pack]

theorem store_of_le (hargs : ts.length < ARGS_SIZE)
    (hline : (flat ts).length + t.length < LINE_SIZE) :
    (pack ts).store t = .ok (pack (ts ++ [t])) := by
  have hputs := @puts_of_le ⟨(pack ts).args ++ [(pack ts).line.length], (pack ts).line⟩ t
    (Nat.le_of_lt hline)
  rw [Lists.store, Lists.newArg, length_args_pack, if_pos hargs, Except.ok_bind, hputs,
    Except.ok_bind, Lists.put, if_pos, pack_snoc, List.append_assoc]
  · rfl
  · rw [List.length_append]
    exact hline

theorem store_full (hargs : ts.length = ARGS_SIZE) : (pack ts).store t = .error .args := by
  rw [Lists.store, Lists.newArg, length_args_pack, if_neg (by omega)]
  rfl

theorem stores_pack (h : (pack ts).stores us = .ok o) : o = pack (ts ++ us) := by
  induction us generalizing ts with
  | nil =>
    cases h
    rw [List.append_nil]
  | cons t us ih =>
    obtain ⟨o₁, hstore, h⟩ := Except.bind_eq_ok.mp h
    rw [store_pack hstore] at h
    rw [ih h, List.append_assoc]
    rfl

/-- With room in `line`, what counts is the number of tokens. -/
theorem stores_eq (hargs : ts.length ≤ ARGS_SIZE) (hline : (flat (ts ++ us)).length ≤ LINE_SIZE) :
    (pack ts).stores us =
      if (ts ++ us).length ≤ ARGS_SIZE then .ok (pack (ts ++ us)) else .error .args := by
  induction us generalizing ts with
  | nil =>
    rw [List.append_nil, if_pos hargs]
    rfl
  | cons t us ih =>
    rw [Lists.stores]
    by_cases hfull : ts.length = ARGS_SIZE
    · rw [store_full hfull, if_neg (by simp; omega)]
      rfl
    · have hflat : (flat ts).length + t.length < LINE_SIZE := by
        rw [flat_append, flat_cons, List.length_append, List.length_append, List.length_cons]
          at hline
        omega
      rw [store_of_le (by omega) hflat, Except.ok_bind, ih, List.append_assoc]
      · rfl
      · rw [List.length_append, List.length_singleton]
        omega
      · rw [List.append_assoc]
        exact hline

end Arrays

/-! ### A turn of the loop -/

section Turn

variable {s : List Char} {p q key turns n : ℕ} {ts : List Token} {o : Lists}

/-- What a turn stores whose word lies from `p` up to `q`. -/
def turnTokens (s : List Char) (p q : ℕ) : List Token :=
  (if p < q then [copied (q - p) (s.drop p)] else []) ++
    if isKeyToken (s.getD q NUL) then [[s.getD q NUL]] else []

theorem length_turnTokens (s : List Char) (p q : ℕ) : (turnTokens s p q).length ≤ 2 := by
  unfold turnTokens
  split <;> split <;> simp

theorem load_of_le (h : p ≤ s.length) : load s p = .ok (s.getD p NUL) := by
  unfold load
  split
  · rfl
  · next hge =>
    have heq : p = s.length := by omega
    subst heq
    simp

theorem nextKeyToken_le (h : nextKeyToken s turns p = .ok q) : q ≤ s.length := by
  induction turns generalizing p with
  | zero => cases h
  | succ turns ih =>
    rw [nextKeyToken, Except.bind_eq_ok] at h
    obtain ⟨ch, hload, h⟩ := h
    have hp := load_le hload
    split_ifs at h
    · cases h
      exact hp
    · obtain ⟨before, -, h⟩ := Except.bind_eq_ok.mp h
      split at h
      · exact ih h
      · cases h
        exact hp
    · cases h
      exact hp
    · exact ih h

theorem not_mem_turnTokens (hnul : NUL ∉ s) (p q : ℕ) : ∀ t ∈ turnTokens s p q, NUL ∉ t := by
  intro t ht hmem
  rcases List.mem_append.mp ht with ht | ht
  · split at ht
    · rw [List.mem_singleton.mp ht] at hmem
      exact hnul (List.mem_of_mem_drop (mem_of_mem_copied _ _ hmem))
    · cases ht
  · split at ht
    · next hop =>
      rw [List.mem_singleton.mp ht, List.mem_singleton] at hmem
      rw [← hmem] at hop
      exact absurd hop (by decide)
    · cases ht

/-- What one turn does, once the word has been found. -/
theorem spiltLoop_turn {ch : Char} {p' : ℕ} (hkey : load s key = .ok ch) (hch : ch ≠ NUL)
    (htrim : trimLeft s turns p = .ok p') (hnext : nextKeyToken s turns p' = .ok q)
    (hturns : s.length < turns) (o : Lists) : spiltLoop s turns (n + 1) p key o =
      o.stores (turnTokens s p' q) >>= spiltLoop s turns n (q + 1) q := by
  have hq := nextKeyToken_le hnext
  have hp := le_of_nextKeyToken hnext
  have hcopy : ∀ o, copyPiece s q turns p' o = o.puts (copied (q - p') (s.drop p')) := by
    intro o
    have hcopy := @copyPiece_eq s (s.drop p') (s.take p') (q - p') turns o
      (List.take_append_drop p' s).symm (by rw [List.length_drop]; omega) (by omega)
    rwa [List.length_take, Nat.min_eq_left (by omega), Nat.add_sub_cancel' hp] at hcopy
  rw [spiltLoop, hkey, Except.ok_bind, if_neg hch, htrim, Except.ok_bind, hnext, Except.ok_bind,
    load_of_le hq, turnTokens]
  generalize s.getD q NUL = c
  by_cases hlt : p' < q
  · by_cases hop : isKeyToken c
    · simp [hlt, hop, hcopy, Lists.stores, Lists.store, Lists.puts]
    · simp [hlt, hop, hcopy, Lists.stores, Lists.store]
  · by_cases hop : isKeyToken c
    · simp [hlt, hop, Lists.stores, Lists.store, Lists.puts]
    · simp [hlt, hop, Lists.stores]

/-- **Tokens are only added.** -/
theorem spiltLoop_extends (hnul : NUL ∉ s) (hturns : s.length < turns)
    (h : spiltLoop s turns n p key (pack ts) = .ok o) :
    ∃ more, o = pack (ts ++ more) ∧ ∀ t ∈ more, NUL ∉ t := by
  induction n generalizing p key ts with
  | zero => cases h
  | succ n ih =>
    have hstart := h
    rw [spiltLoop] at h
    obtain ⟨ch, hkey, h⟩ := Except.bind_eq_ok.mp h
    split at h
    · cases h
      exact ⟨[], by rw [List.append_nil], nofun⟩
    next hch =>
      obtain ⟨p', htrim, h⟩ := Except.bind_eq_ok.mp h
      obtain ⟨q, hnext, -⟩ := Except.bind_eq_ok.mp h
      rw [spiltLoop_turn hkey hch htrim hnext hturns] at hstart
      obtain ⟨o₁, hstores, hloop⟩ := Except.bind_eq_ok.mp hstart
      rw [stores_pack hstores] at hloop
      obtain ⟨more, rfl, hmore⟩ := ih hloop
      refine ⟨turnTokens s p' q ++ more, by rw [List.append_assoc], fun t ht => ?_⟩
      rcases List.mem_append.mp ht with ht | ht
      · exact not_mem_turnTokens hnul p' q t ht
      · exact hmore t ht

end Turn

/-! ### The words that are stored -/

section Words

variable {s l r : List Char}

theorem lex_nil : lex [] = [] := rfl

theorem lex_dropWhile (r : List Char) : lex (r.dropWhile (· = ' ')) = lex r := by
  induction r with
  | nil => rfl
  | cons c r ih =>
    by_cases hc : c = ' '
    · rw [List.dropWhile_cons_of_pos (by simpa using hc), ih, hc, lex_blank]
    · rw [List.dropWhile_cons_of_neg (by simpa using hc)]

/-- Blanks are no backslashes and no operators. -/
theorem trim_eq (h : run l = 0) : run (l ++ r.takeWhile (· = ' ')) = 0 ∧ (OperatorsOk l r ↔
    OperatorsOk (l ++ r.takeWhile (· = ' ')) (r.dropWhile (· = ' '))) := by
  induction r generalizing l with
  | nil => simpa using h
  | cons c r ih =>
    by_cases hc : c = ' '
    · subst hc
      have hsnoc : run (l ++ [' ']) = 0 := run_snoc_of_ne l (by decide)
      rw [List.takeWhile_cons_of_pos (by simp), List.dropWhile_cons_of_pos (by simp),
        operatorsOk_plain (by simp), List.append_cons]
      exact ih hsnoc
    · rw [List.takeWhile_cons_of_neg (by simpa using hc), List.append_nil,
        List.dropWhile_cons_of_neg (by simpa using hc)]
      exact ⟨h, Iff.rfl⟩

theorem copied_ne_nil {n : ℕ} (hn : n ≠ 0) (hr : r ≠ []) : copied n r ≠ [] := by
  obtain ⟨n, rfl⟩ := Nat.exists_eq_succ_of_ne_zero hn
  rcases r with _ | ⟨c, _ | ⟨d, r⟩⟩
  · exact absurd rfl hr
  · simp [copied]
  · rw [copied]
    split <;> simp

/-- A word of some characters. -/
theorem word_copied {n : ℕ} (hn : n ≤ r.length) :
    word (copied n r) = if 0 < n then [copied n r] else [] := by
  by_cases hzero : n = 0
  · subst hzero
    simp [copied, word]
  · have hr : r ≠ [] := by
      rintro rfl
      exact hzero (Nat.le_zero.mp hn)
    rw [word, if_neg (copied_ne_nil hzero hr), if_pos (Nat.pos_of_ne_zero hzero)]

theorem getD_append_add (hs : s = l ++ r) (k : ℕ) :
    s.getD (l.length + k) NUL = (r.drop k).headD NUL := by
  subst hs
  simp [List.getElem?_append_right]

/-- The right end of a word gives the right tokens. -/
theorem lex_turnTokens (hs : s = l ++ r) : lex r =
    turnTokens s l.length (l.length + pieceLen false r) ++ lex (r.drop (pieceLen false r + 1)) := by
  have hdrop : s.drop l.length = r := by rw [hs, List.drop_left]
  rw [lex_eq, word_copied (pieceLen_le r), turnTokens, getD_append_add hs, hdrop,
    Nat.add_sub_cancel_left, List.append_assoc, ← List.drop_drop]
  congr 1
  · simp
  · cases r.drop (pieceLen false r) with
    | nil => rfl
    | cons c r' => rfl

/-- At most one token is stored of a condition. -/
theorem length_flat_ite {p : Prop} [Decidable p] {t : Token} {n : ℕ} (h : p → t.length ≤ n) :
    (flat (if p then [t] else [])).length ≤ n + (if p then [t] else []).length := by
  split
  next hp =>
    have hle := h hp
    rw [flat_cons, List.length_append, List.length_cons, List.length_singleton]
    simp only [flat, List.flatMap_nil, List.length_nil]
    omega
  next => exact Nat.zero_le _

/-- What is stored has no more characters than have been read. -/
theorem length_flat_turnTokens (hs : s = l ++ r) :
    (flat (turnTokens s l.length (l.length + pieceLen false r))).length ≤
      (r.take (pieceLen false r + 1)).length +
        (turnTokens s l.length (l.length + pieceLen false r)).length := by
  have hle := pieceLen_le r
  have hcopied := length_copied_le (pieceLen false r) r
  have hdrop : s.drop l.length = r := by rw [hs, List.drop_left]
  have hword := @length_flat_ite (l.length < l.length + pieceLen false r) _
    (copied (pieceLen false r) r) (pieceLen false r) fun _ => hcopied
  have hop : isKeyToken ((r.drop (pieceLen false r)).headD NUL) →
      [(r.drop (pieceLen false r)).headD NUL].length ≤
        (r.take (pieceLen false r + 1)).length - pieceLen false r := by
    intro hop
    have hlt : pieceLen false r < r.length := by
      by_contra hge
      rw [List.drop_eq_nil_of_le (by omega)] at hop
      exact absurd hop (by decide)
    rw [List.length_take, List.length_singleton]
    omega
  have hops := length_flat_ite hop
  have htake : pieceLen false r ≤ (r.take (pieceLen false r + 1)).length := by
    rw [List.length_take]
    omega
  rw [turnTokens, getD_append_add hs, hdrop, Nat.add_sub_cancel_left, flat_append,
    List.length_append, List.length_append]
  omega

end Words

/-! ### The loop -/

/-- How the loop ends that has stored `ts` and has `more` to store: with the right tokens, if there
is room for them; but not if an operator is wrong. -/
def Outcome (ts more : List Token) (good : Prop) (res : Except Stop Lists) : Prop :=
  (good → res =
    if (ts ++ more).length ≤ ARGS_SIZE then .ok (pack (ts ++ more)) else .error .args) ∧
  (¬good → ∀ o, res = .ok o → o.tokens ≠ ts ++ more)

/-- Some of them are stored. -/
theorem Outcome.stores {ts us more : List Token} {good : Prop} {f : Lists → Except Stop Lists}
    (hargs : ts.length ≤ ARGS_SIZE) (hline : (flat (ts ++ us)).length ≤ LINE_SIZE)
    (h : (ts ++ us).length ≤ ARGS_SIZE → Outcome (ts ++ us) more good (f (pack (ts ++ us)))) :
    Outcome ts (us ++ more) good ((pack ts).stores us >>= f) := by
  rw [stores_eq hargs hline]
  by_cases hlen : (ts ++ us).length ≤ ARGS_SIZE
  · rw [if_pos hlen, Except.ok_bind]
    unfold Outcome at h ⊢
    rw [← List.append_assoc]
    exact h hlen
  · rw [if_neg hlen, Except.error_bind]
    refine ⟨fun _ => ?_, fun _ => nofun⟩
    rw [if_neg]
    simp only [List.length_append] at hlen ⊢
    omega

/-- The state of the loop at `r`, which is what remains of the line `s`. -/
structure LoopAt (s l r : List Char) (ts : List Token) : Prop where
  split : s = l ++ r
  run : run l = 0
  args : ts.length ≤ ARGS_SIZE
  line : (flat ts).length ≤ l.length + ts.length
  noNul : ∀ t ∈ ts, NUL ∉ t

section Loop

variable {s l r : List Char} {ts : List Token} {turns key n : ℕ}

/-- Blanks are passed over. -/
theorem LoopAt.trim (h : LoopAt s l r ts) :
    LoopAt s (l ++ r.takeWhile (· = ' ')) (r.dropWhile (· = ' ')) ts where
  split := by rw [h.split, List.append_assoc, List.takeWhile_append_dropWhile]
  run := (trim_eq h.run).1
  args := h.args
  line := by
    have hline := h.line
    rw [List.length_append]
    omega
  noNul := h.noNul

/-- There is room in `line`. -/
theorem LoopAt.room (h : LoopAt s l r ts) (hs : s.length ≤ 511) :
    (flat (ts ++ turnTokens s l.length (l.length + pieceLen false r))).length ≤ LINE_SIZE := by
  have hlen : s.length = l.length + r.length := by rw [h.split, List.length_append]
  have hline := h.line
  have hargs : ts.length ≤ 50 := h.args
  have hflat := length_flat_turnTokens h.split
  have htwo := length_turnTokens s l.length (l.length + pieceLen false r)
  rw [List.length_take] at hflat
  rw [flat_append, List.length_append, show LINE_SIZE = 1000 from rfl]
  omega

/-- A word and what ends it have been stored. -/
theorem LoopAt.next {c : Char} {r' : List Char} (h : LoopAt s l r ts) (hnul : NUL ∉ s)
    (hlen : (ts ++ turnTokens s l.length (l.length + pieceLen false r)).length ≤ ARGS_SIZE)
    (hcons : r.drop (pieceLen false r) = c :: r') (hend : isKeyToken c ∨ c = ' ') :
    LoopAt s (l ++ r.take (pieceLen false r + 1)) (r.drop (pieceLen false r + 1))
      (ts ++ turnTokens s l.length (l.length + pieceLen false r)) where
  split := by rw [h.split, List.append_assoc, List.take_append_drop]
  run := by
    have htake : r.take (pieceLen false r + 1) = r.take (pieceLen false r) ++ [c] := by
      rw [List.take_add, hcons]
      rfl
    have hc : c ≠ '\\' := by
      rintro rfl
      rcases hend with hop | hblank
      · simp at hop
      · exact absurd hblank (by decide)
    rw [htake, ← List.append_assoc]
    exact run_snoc_of_ne _ hc
  args := hlen
  line := by
    have hline := h.line
    have hflat := length_flat_turnTokens h.split
    rw [flat_append, List.length_append, List.length_append, List.length_append]
    omega
  noNul := by
    intro t ht
    rcases List.mem_append.mp ht with ht | ht
    · exact h.noNul t ht
    · exact not_mem_turnTokens hnul _ _ t ht

/-- A word that is too long makes the tokens wrong. -/
theorem tokens_ne {q : ℕ} {more : List Token} (h : LoopAt s l r ts) (hnul : NUL ∉ s)
    (hmore : ∀ t ∈ more, NUL ∉ t) (hpos : 0 < pieceLen false r)
    (hlt : l.length + pieceLen false r < q) (hq : q ≤ s.length) :
    (pack (ts ++ turnTokens s l.length q ++ more)).tokens ≠ ts ++ lex r := by
  have hdrop : s.drop l.length = r := by rw [h.split, List.drop_left]
  have hlen : s.length = l.length + r.length := by rw [h.split, List.length_append]
  obtain ⟨x, tail, hlonger⟩ := copied_longer r (q - l.length) (by omega) (by omega)
  rw [tokens_pack, List.append_assoc]
  · intro heq
    rw [List.append_cancel_left_eq, turnTokens, if_pos (by omega), hdrop, lex_eq,
      word_copied (pieceLen_le r), if_pos hpos] at heq
    have hhead := (List.cons.inj heq).1
    rw [hlonger] at hhead
    simp at hhead
  · intro t ht
    rcases List.mem_append.mp ht with ht | ht
    · rcases List.mem_append.mp ht with ht | ht
      · exact h.noNul t ht
      · exact not_mem_turnTokens hnul _ _ t ht
    · exact hmore t ht

/-- **The loop**, from any of its turns on. -/
theorem spiltLoop_spec (hnul : NUL ∉ s) (hs : s.length ≤ 511) (hturns : s.length + 2 ≤ turns) :
    ∀ {n : ℕ} {l r : List Char} {ts : List Token} {key : ℕ} {ch : Char}, LoopAt s l r ts →
      load s key = .ok ch → ch ≠ NUL → r.length + 2 ≤ n →
        Outcome ts (lex r) (OperatorsOk l r) (spiltLoop s turns n l.length key (pack ts)) := by
  intro n
  induction n with
  | zero => intro l r ts key ch _ _ _ hn; omega
  | succ n ih =>
  intro l r ts key ch h hkey hch hn
  have htrim : trimLeft s turns l.length = .ok (l ++ r.takeWhile (· = ' ')).length := by
    have hlen : s.length = l.length + r.length := by rw [h.split, List.length_append]
    rw [trimLeft_eq h.split (by omega), List.length_append]
  have hshort : (r.dropWhile (· = ' ')).length ≤ r.length := List.length_dropWhile_le _ _
  rw [← lex_dropWhile, (trim_eq h.run).2]
  have hat := h.trim
  generalize l ++ r.takeWhile (· = ' ') = l₁ at htrim hat ⊢
  generalize r.dropWhile (· = ' ') = r₁ at hshort hat ⊢
  have hlen : s.length = l₁.length + r₁.length := by rw [hat.split, List.length_append]
  have hnul₁ : NUL ∉ r₁ := fun hmem => hnul (by rw [hat.split]; exact List.mem_append_right _ hmem)
  have hscan := @nextKeyToken_scan s r₁.length l₁ r₁ turns (Nat.le_refl _) hat.split hnul₁
    (by omega)
  have hesc : decide (run l₁ % 2 = 1) = false := by rw [hat.run]; rfl
  unfold Scanned at hscan
  rw [hesc] at hscan
  rcases hscan with ⟨hnext, hiff⟩ | ⟨hbad, hlong⟩
  · rw [spiltLoop_turn hkey hch htrim hnext (by omega), lex_turnTokens hat.split, hiff]
    refine Outcome.stores hat.args (hat.room hs) fun hlen' => ?_
    rcases drop_pieceLen r₁ with hnil | ⟨c, r', hcons, hend⟩
    · -- the end of the line: the next turn is the last
      obtain ⟨n, rfl⟩ : ∃ m, n = m + 1 := ⟨n - 1, by omega⟩
      have hq : l₁.length + pieceLen false r₁ = s.length := by
        have hge := List.drop_eq_nil_iff.mp hnil
        have hle := pieceLen_le r₁
        omega
      have htail : r₁.drop (pieceLen false r₁ + 1) = [] := by
        rw [← List.drop_drop, hnil, List.drop_nil]
      rw [htail, lex_nil, spiltLoop, hq, load_end rfl, Except.ok_bind, if_pos rfl]
      refine ⟨fun _ => ?_, fun hbad => absurd operatorsOk_nil hbad⟩
      rw [hq] at hlen'
      rw [List.append_nil, if_pos hlen']
    · have hc : c ≠ NUL := by
        intro heq
        have hmem : c ∈ r₁ := List.mem_of_mem_drop (hcons ▸ List.mem_cons_self)
        exact hnul₁ (heq ▸ hmem)
      have hlt : pieceLen false r₁ < r₁.length := by
        by_contra hge
        rw [List.drop_eq_nil_of_le (by omega)] at hcons
        cases hcons
      have hkey' : load s (l₁.length + pieceLen false r₁) = .ok c := by
        rw [load_of_le (by omega), getD_append_add hat.split, hcons, List.headD_cons]
      have hnext' := ih (hat.next hnul hlen' hcons hend) hkey' hc
        (by rw [List.length_drop]; omega)
      rw [List.length_append, List.length_take, Nat.min_eq_left hlt] at hnext'
      exact hnext'
  · refine ⟨fun hgood => absurd hgood hbad, fun _ o ho => ?_⟩
    rcases hnext : nextKeyToken s turns l₁.length with e | q
    · rw [spiltLoop, hkey, Except.ok_bind, if_neg hch, htrim, Except.ok_bind, hnext] at ho
      cases ho
    · obtain ⟨hlt, hpos⟩ := hlong q hnext
      rw [spiltLoop_turn hkey hch htrim hnext (by omega)] at ho
      obtain ⟨o₁, hstores, hloop⟩ := Except.bind_eq_ok.mp ho
      rw [stores_pack hstores] at hloop
      obtain ⟨more, rfl, hmore⟩ := spiltLoop_extends hnul (by omega) hloop
      rw [hat.run] at hpos
      exact tokens_ne hat hnul hmore (by omega) hlt (nextKeyToken_le hnext)

end Loop

/-- **The line is split right** exactly if no operator is its first character, each has none or an
odd number of backslashes in front, an escaped one another character of its word behind it, and
there are at most fifty tokens. -/
theorem spiltCommand_iff (input : InputLine) :
    Splits input ↔ WellEscaped input.chars ∧ (lex input.chars).length ≤ ARGS_SIZE := by
  rcases input with ⟨s, hnul, hs⟩
  unfold Splits
  dsimp only
  rcases s with _ | ⟨c, s⟩
  · -- the loop makes no turn
    refine iff_of_true (fun turns hturns => ?_) ⟨operatorsOk_nil, Nat.zero_le _⟩
    obtain ⟨turns, rfl⟩ : ∃ t, turns = t + 1 := ⟨turns - 1, by omega⟩
    exact ⟨⟨[], []⟩, rfl, rfl⟩
  have hat : LoopAt (c :: s) [] (c :: s) [] := ⟨rfl, rfl, Nat.zero_le _, Nat.zero_le _, nofun⟩
  have hc : c ≠ NUL := fun heq => hnul (heq ▸ List.mem_cons_self)
  have hrun : ∀ turns ≥ (c :: s).length + 2, Outcome [] (lex (c :: s)) (WellEscaped (c :: s))
      (spiltCommand turns (c :: s)) := fun turns hturns =>
    spiltLoop_spec hnul hs hturns hat (@load_append (c :: s) [] s c rfl) hc hturns
  constructor
  · intro h
    obtain ⟨o, ho, htokens⟩ := h _ (Nat.le_refl _)
    obtain ⟨hgood, hbad⟩ := hrun _ (Nat.le_refl _)
    have hescaped : WellEscaped (c :: s) := by
      by_contra hno
      exact hbad hno o ho htokens
    refine ⟨hescaped, ?_⟩
    by_contra hlong
    have hres := hgood hescaped
    rw [List.nil_append, if_neg hlong, ho] at hres
    cases hres
  · rintro ⟨hescaped, hlen⟩ turns hturns
    have hres := (hrun turns hturns).1 hescaped
    rw [List.nil_append, if_pos hlen] at hres
    exact ⟨_, hres, tokens_pack fun t ht hmem => hnul (mem_of_mem_lex ht hmem)⟩

/-- An escaped backslash, and an operator behind it. -/
def escapedBackslash : InputLine := ⟨['a', '\\', '\\', ';', 'b'], by decide, by decide⟩

/-- The operator is taken for a part of the word. -/
theorem exists_missplit : ∃ input : InputLine, ¬Splits input := by
  refine ⟨escapedBackslash, fun h => ?_⟩
  obtain ⟨o, ho, htokens⟩ := h 7 (by decide)
  have hout : spiltCommand 7 escapedBackslash.chars =
      .ok (pack [['a', '\\', ';', 'b']]) := by decide
  rw [hout] at ho
  cases ho
  revert htokens
  decide

end Shell
end UnixV6pp
