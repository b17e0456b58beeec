import UnixV6pp.User.ShellGrammar
import UnixV6pp.Lib.Fallible
import Mathlib.Data.List.TakeWhile

/-!
# What the shell makes of a command line

## Main results

* `analizeCommand_terminates` — the parser returns, whatever the tokens are.
* `Line.parsed`, `line_of_ok` — a command line is parsed, and what is parsed is a command line.
* `parsed_iff` — **the parser does what is asked of it on command lines**, and on no other
  balanced lines.
* `not_parsed` — four lines that it gets wrong.
-/

namespace UnixV6pp
namespace Shell

/-! ### The scan -/

/-- No `;` or `&` outside of parentheses. -/
def NoTable (curveCnt : ℤ) (ts : List Token) : Prop :=
  ∀ l op r, ts = l ++ op :: r → op = ['&'] ∨ op = [';'] → curveCnt + depth l ≠ 0

theorem NoTable.of_left {c : ℤ} {l r : List Token} (h : NoTable c (l ++ r)) : NoTable c l :=
  fun l' op r' heq hop => h l' op (r' ++ r) (by rw [heq]; simp) hop

theorem NoTable.of_append {c : ℤ} {l r : List Token} (h : NoTable c (l ++ r)) :
    NoTable (c + depth l) r := by
  intro l' op r' heq hop
  have hne := h (l ++ l') op r' (by rw [heq]; simp) hop
  rwa [depth_append, ← Int.add_assoc] at hne

theorem noTable_nil (c : ℤ) : NoTable c [] := fun l _ _ heq => by
  cases l <;> cases heq

/-- One token more in front. -/
theorem NoTable.cons {c : ℤ} {t : Token} {ts : List Token} (h : NoTable (c + depth₁ t) ts)
    (ht : t = ['&'] ∨ t = [';'] → c ≠ 0) : NoTable c (t :: ts) := by
  intro l op r heq hop
  rcases l with _ | ⟨x, l⟩
  · obtain ⟨rfl, -⟩ := List.cons.inj heq
    simpa using ht hop
  · obtain ⟨rfl, htail⟩ := List.cons.inj heq
    have hne := h l op r htail hop
    rwa [depth_cons, ← Int.add_assoc]

/-- A scan that finds a `;` or `&` finds the first one outside of parentheses. -/
theorem scan_table {ts : List Token} {cur mid : ℕ} {c : ℤ} {fp : Option ℕ}
    (h : scan ts cur c fp = .table mid) :
    ∃ l op r, ts = l ++ op :: r ∧ mid = cur + l.length ∧ (op = ['&'] ∨ op = [';']) ∧
      c + depth l = 0 ∧ NoTable c l := by
  induction ts generalizing cur c fp with
  | nil => cases h
  | cons t ts ih =>
    have hskip : ∀ c' fp', c' = c + depth₁ t → (t = ['&'] ∨ t = [';'] → c ≠ 0) →
        scan ts (cur + 1) c' fp' = .table mid → ∃ l op r, t :: ts = l ++ op :: r ∧
          mid = cur + l.length ∧ (op = ['&'] ∨ op = [';']) ∧ c + depth l = 0 ∧ NoTable c l := by
      rintro c' fp' rfl ht hscan
      rcases ih hscan with ⟨l, op, r, rfl, rfl, hop, hdepth, hno⟩
      refine ⟨t :: l, op, r, rfl, ?_, hop, ?_, hno.cons ht⟩
      · rw [List.length_cons]
        omega
      · rw [depth_cons]
        omega
    unfold scan at h
    split_ifs at h with h₁ h₂ h₃ h₄ h₅
    · cases h
      exact ⟨[], t, ts, rfl, rfl, h₁, by simpa using h₂, noTable_nil c⟩
    · refine hskip c fp ?_ (fun _ => h₂) h
      rcases h₁ with rfl | rfl <;> simp [depth₁]
    · exact hskip c _ (by simp [depth₁, h₃]) (fun hs => absurd hs h₁) h
    · exact hskip c _ (by simp [depth₁, h₃]) (fun hs => absurd hs h₁) h
    · exact hskip (c + 1) _ (by simp [depth₁, ‹t = ['(']›]) (fun hs => absurd hs h₁) h
    · exact hskip (c - 1) _ (by simp [depth₁, ‹t = [')']›]; omega) (fun hs => absurd hs h₁) h
    · exact hskip c _ (by simp [depth₁, *]) (fun hs => absurd hs h₁) h

/-- A scan that finds none ends with the depth of the range, and with the first `|` outside of
parentheses. -/
theorem scan_other {ts : List Token} {cur : ℕ} {c : ℤ} {fp fp' : Option ℕ} {c' : ℤ}
    (h : scan ts cur c fp = .other fp' c') :
    NoTable c ts ∧ c' = c + depth ts ∧ (∀ q, fp = some q → fp' = some q) ∧
      (fp = none → ∀ mid, fp' = some mid → ∃ l r, ts = l ++ ['|'] :: r ∧ mid = cur + l.length ∧
        c + depth l = 0) := by
  induction ts generalizing cur c fp with
  | nil =>
    cases h
    exact ⟨noTable_nil _, by simp, fun _ h => h, fun hnone _ hsome => nomatch hnone ▸ hsome⟩
  | cons t ts ih =>
    have hskip : ∀ c₁, c₁ = c + depth₁ t → (t = ['&'] ∨ t = [';'] → c ≠ 0) →
        scan ts (cur + 1) c₁ fp = .other fp' c' → NoTable c (t :: ts) ∧
          c' = c + depth (t :: ts) ∧ (∀ q, fp = some q → fp' = some q) ∧
            (fp = none → ∀ mid, fp' = some mid → ∃ l r, t :: ts = l ++ ['|'] :: r ∧
              mid = cur + l.length ∧ c + depth l = 0) := by
      rintro c₁ rfl ht hscan
      rcases ih hscan with ⟨hno, hc, hq, hmid⟩
      refine ⟨hno.cons ht, by rw [depth_cons]; omega, hq, fun hfp mid hm => ?_⟩
      rcases hmid hfp mid hm with ⟨l, r, rfl, rfl, hdepth⟩
      refine ⟨t :: l, r, rfl, ?_, ?_⟩
      · rw [List.length_cons]
        omega
      · rw [depth_cons]
        omega
    unfold scan at h
    by_cases h₁ : t = ['&'] ∨ t = [';']
    · rw [if_pos h₁] at h
      by_cases h₂ : c = 0
      · rw [if_pos h₂] at h
        cases h
      · rw [if_neg h₂] at h
        refine hskip c ?_ (fun _ => h₂) h
        rcases h₁ with rfl | rfl <;> simp [depth₁]
    rw [if_neg h₁] at h
    by_cases h₃ : t = ['|']
    · rw [if_pos h₃] at h
      by_cases hnew : c = 0 ∧ fp = none
      · -- this one is the first
        rw [if_pos hnew] at h
        rcases ih h with ⟨hno, hc, hq, -⟩
        have hd : depth₁ t = 0 := by simp [depth₁, h₃]
        refine ⟨NoTable.cons (by rw [hd, Int.add_zero]; exact hno) (fun hs => absurd hs h₁),
          by rw [depth_cons, hd]; omega, fun q hfp => ?_, fun _ mid hm => ?_⟩
        · rw [hnew.2] at hfp
          cases hfp
        · rw [hq cur rfl] at hm
          cases hm
          exact ⟨[], ts, by rw [h₃]; rfl, rfl, by simpa using hnew.1⟩
      · rw [if_neg hnew] at h
        exact hskip c (by simp [depth₁, h₃]) (fun hs => absurd hs h₁) h
    rw [if_neg h₃] at h
    by_cases h₄ : t = ['(']
    · rw [if_pos h₄] at h
      exact hskip (c + 1) (by simp [depth₁, h₄]) (fun hs => absurd hs h₁) h
    rw [if_neg h₄] at h
    by_cases h₅ : t = [')']
    · rw [if_pos h₅] at h
      exact hskip (c - 1) (by simp [depth₁, h₅]; omega) (fun hs => absurd hs h₁) h
    · rw [if_neg h₅] at h
      exact hskip c (by simp [depth₁, h₄, h₅]) (fun hs => absurd hs h₁) h

/-- A range without a `;` or `&` is no list. -/
theorem scan_ne_table {given : List Token} (h : NoTable 0 given) (mid : ℕ) :
    scan (strip given) 0 0 none ≠ .table mid := by
  intro hscan
  rcases scan_table hscan with ⟨l, op, r, heq, -, hop, hdepth, -⟩
  rw [← strip_append given] at h
  have hno := h.of_append
  rw [depth_takeWhile, Int.add_zero] at hno
  exact hno l op r heq hop hdepth

/-- The tokens around the last `)`. -/
theorem splitLast_eq {ts : List Token} : ∀ {l r : List Token}, splitLast ts = some (l, r) →
    ts = l ++ [')'] :: r ∧ [')'] ∉ r := by
  have hnone : ∀ ts : List Token, splitLast ts = none → [')'] ∉ ts := by
    intro ts
    induction ts with
    | nil => simp
    | cons t ts ih =>
      unfold splitLast
      split
      · nofun
      · next h =>
        split
        · nofun
        · next ht =>
          intro _ hmem
          rcases List.mem_cons.mp hmem with heq | hmem
          · exact ht heq.symm
          · exact ih h hmem
  induction ts with
  | nil => nofun
  | cons t ts ih =>
    intro l r h
    unfold splitLast at h
    split at h
    · next l' r' heq =>
      cases h
      rcases ih heq with ⟨rfl, hr⟩
      exact ⟨rfl, hr⟩
    · next hts =>
      split at h
      · next ht =>
        cases h
        exact ⟨by rw [ht]; rfl, hnone _ hts⟩
      · cases h

/-- There is a last one. -/
theorem splitLast_append (l : List Token) {r : List Token} (hr : [')'] ∉ r) :
    splitLast (l ++ [')'] :: r) = some (l, r) := by
  induction l with
  | nil =>
    have hnone : splitLast r = none := by
      rcases h : splitLast r with _ | ⟨l', r'⟩
      · rfl
      · exact absurd ((splitLast_eq h).1 ▸ by simp) hr
    simp [splitLast, hnone]
  | cons t l ih => simp [splitLast, ih]

/-! ### One call -/

variable {n mid cur cur' : ℕ} {given : List Token} {params : Params} {t : Tree} {c : ℤ}

theorem analize_nil : analizeCommand (n + 1) [] params cur = .ok (.null, cur) := rfl

theorem analize_table (hne : given ≠ []) (h : scan (strip given) 0 0 none = .table mid) :
    analizeCommand (n + 1) given params cur =
      createTableNode (analizeCommand n) given (strip given) mid params cur := by
  simp only [analizeCommand, if_neg hne, h]

theorem analize_pipe (hne : given ≠ []) (h : scan (strip given) 0 0 none = .other (some mid) c) :
    analizeCommand (n + 1) given params cur =
      createPipeNode (analizeCommand n) given (strip given) mid params cur := by
  simp only [analizeCommand, if_neg hne, h]

theorem ne_nil_of_strip {x : Token} {xs : List Token} (h : strip given = x :: xs) :
    given ≠ [] := by
  rintro rfl
  cases h

/-- Only separators. -/
theorem analize_seps (hne : given ≠ []) (h : strip given = []) :
    analizeCommand (n + 1) given params cur = .error .outOfRange := by
  have hd : given.dropWhile isSep = [] := h
  simp only [analizeCommand, if_neg hne, hd, scan]

theorem analize_curve {x : Token} {xs : List Token} (hs : strip given = x :: xs)
    (h : scan (strip given) 0 0 none = .other none c) (hx : x.head? = some '(' ∧ c = 0) :
    analizeCommand (n + 1) given params cur =
      createCurveNode (analizeCommand n) given (strip given) cur := by
  have hd : given.dropWhile isSep = x :: xs := hs
  rw [hs] at h ⊢
  simp only [analizeCommand, if_neg (ne_nil_of_strip hs), hd, h, if_pos hx]

theorem analize_simple {x : Token} {xs : List Token} (hs : strip given = x :: xs)
    (h : scan (strip given) 0 0 none = .other none c) (hx : ¬(x.head? = some '(' ∧ c = 0)) :
    analizeCommand (n + 1) given params cur = createSimpleNode given x xs params cur := by
  have hd : given.dropWhile isSep = x :: xs := hs
  rw [hs] at h
  simp only [analizeCommand, if_neg (ne_nil_of_strip hs), hd, h, if_neg hx]

theorem length_strip_le (given : List Token) : (strip given).length ≤ given.length :=
  (List.dropWhile_sublist isSep).length_le

/-- The parts of a list. -/
theorem table_parts (h : scan (strip given) 0 0 none = .table mid) :
    ∃ op, (op = ['&'] ∨ op = [';']) ∧ (strip given)[mid]? = some op ∧
      strip given = (strip given).take mid ++ op :: (strip given).drop (mid + 1) ∧
      depth ((strip given).take mid) = 0 ∧ NoTable 0 ((strip given).take mid) ∧
      ((strip given).take mid).length + ((strip given).drop (mid + 1)).length < given.length := by
  have hle := length_strip_le given
  rcases scan_table h with ⟨l, op, r, heq, hmid, hop, hdepth, hno⟩
  have hmid : mid = l.length := by omega
  rw [heq] at hle ⊢
  subst hmid
  simp only [List.take_left, List.length_append, List.length_cons] at hle ⊢
  refine ⟨op, hop, by simp, by simp, by omega, hno, ?_⟩
  simp
  omega

/-- The parts of a pipeline. -/
theorem pipe_parts (h : scan (strip given) 0 0 none = .other (some mid) c) :
    strip given = (strip given).take mid ++ ['|'] :: (strip given).drop (mid + 1) ∧
      depth ((strip given).take mid) = 0 ∧ NoTable 0 ((strip given).take mid) ∧
      NoTable 0 ((strip given).drop (mid + 1)) ∧
      ((strip given).take mid).length + ((strip given).drop (mid + 1)).length < given.length := by
  have hle := length_strip_le given
  rcases scan_other h with ⟨hno, -, -, hfirst⟩
  rcases hfirst rfl mid rfl with ⟨l, r, heq, hmid, hdepth⟩
  have hmid : mid = l.length := by omega
  rw [heq] at hle hno ⊢
  subst hmid
  simp only [List.take_left, List.length_append, List.length_cons] at hle ⊢
  have hr : NoTable 0 r := by
    have hbar : NoTable (0 + depth (l ++ [['|']])) r :=
      NoTable.of_append (by rw [List.append_assoc]; exact hno)
    have hzero : 0 + depth (l ++ [['|']]) = 0 := by
      rw [depth_append]
      simpa [depth₁] using hdepth
    rwa [hzero] at hbar
  refine ⟨by simp, by omega, hno.of_left, by simpa using hr, ?_⟩
  simp
  omega

/-- **The parser returns**, whatever the tokens are. -/
theorem analizeCommand_terminates : ∀ (n : ℕ) (given : List Token) (params : Params) (cur : ℕ),
    given.length < n → (analizeCommand n given params cur).Spares .outOfFuel := by
  intro n
  induction n with
  | zero => exact fun _ _ _ hlen => absurd hlen (Nat.not_lt_zero _)
  | succ n ih =>
    intro given params cur hlen
    by_cases hne : given = []
    · rw [hne, analize_nil]
      exact .ok _ _
    rcases hscan : scan (strip given) 0 0 none with mid | ⟨_ | mid, c⟩
    · rw [analize_table hne hscan]
      rcases table_parts hscan with ⟨-, -, -, -, -, -, hparts⟩
      exact (ih _ _ _ (by omega)).bind fun _ => (ih _ _ _ (by omega)).bind fun _ => .ok _ _
    · rcases hs : strip given with _ | ⟨x, xs⟩
      · rw [analize_seps hne hs]
        nofun
      have hle := length_strip_le given
      by_cases hx : x.head? = some '(' ∧ c = 0
      · rw [analize_curve hs hscan hx, createCurveNode]
        rcases hl : splitLast (strip given) with _ | ⟨l, tail⟩
        · nofun
        · have hlen' := congrArg List.length (splitLast_eq hl).1
          simp only [List.length_append, List.length_cons] at hlen'
          refine (ih _ _ _ ?_).bind fun _ => .ok _ _
          rw [List.length_drop]
          omega
      · rw [analize_simple hs hscan hx, createSimpleNode]
        split
        · nofun
        · exact .ok _ _
    · rw [analize_pipe hne hscan]
      rcases pipe_parts hscan with ⟨-, -, -, -, hparts⟩
      exact (ih _ _ _ (by omega)).bind fun _ => (ih _ _ _ (by omega)).bind fun _ => .ok _ _

/-! ### A command line is parsed -/

/-- What the tree of a command line is like. -/
structure Result (bal : Prop) (given : List Token) (params : Params) (cur : ℕ) (t : Tree)
    (cur' : ℕ) : Prop where
  given_eq : t.given = given
  ok : t.Ok bal
  cur_le : cur' ≤ cur + given.length
  fand_of_simple : EndsSimple given → t.fand = params.fand
  fand_le : t.fand = true → params.fand = true
  table : t.IsTable → ∃ mid, scan (strip given) 0 0 none = .table mid
  null : t = .null → given = []

/-- The parentheses of a part of a range. -/
theorem balanced_parts {l r : List Token} {op : Token} (h : Balanced given)
    (heq : strip given = l ++ op :: r) (hl : depth l = 0) (hop : depth₁ op = 0) :
    Balanced l ∧ Balanced r := by
  have hs := h.strip
  rw [heq] at hs
  refine ⟨hs.of_left hl, ?_⟩
  have hr : Balanced ((l ++ [op]) ++ r) := by
    rw [List.append_assoc]
    exact hs
  exact hr.of_append (by rw [depth_append, hl]; simp [hop])

/-- **The parser takes a command line.** -/
theorem Line.result (h : Line given) : ∀ (n : ℕ) (params : Params) (cur : ℕ) (bal : Prop),
    given.length < n → (params.fand = true → NoTable 0 given) → (bal → Balanced given) →
    ∃ t cur', analizeCommand n given params cur = .ok (t, cur') ∧
      Result bal given params cur t cur' := by
  induction h with
  | empty =>
    intro n params cur bal hlen _ _
    obtain ⟨n, rfl⟩ : ∃ k, n = k + 1 := ⟨n - 1, by omega⟩
    refine ⟨.null, cur, rfl, rfl, trivial, Nat.le_refl _, ?_, nofun, nofun, fun _ => rfl⟩
    rintro (⟨-, hs, -⟩ | ⟨hs, -⟩)
    · cases hs
    · cases hs
  | @table given mid hscan hl hr hamp ihl ihr =>
    intro n params cur bal hlen hno hbal
    obtain ⟨n, rfl⟩ : ∃ k, n = k + 1 := ⟨n - 1, by omega⟩
    have hne : given ≠ [] := by
      rintro rfl
      cases hscan
    rcases table_parts hscan with ⟨op, hop, hget, heq, hdepth, hnol, hparts⟩
    have hopd : depth₁ op = 0 := by rcases hop with rfl | rfl <;> decide
    -- the flag is not set for a list
    have hfand : params.fand = false := by
      rcases hf : params.fand with _ | _
      · rfl
      · exact absurd hscan (scan_ne_table (hno hf) mid)
    -- the parameters of the left part
    set params' : Params := if (strip given)[mid]? = some ['&'] then { params with fand := true }
      else params with hparams
    rcases ihl n params' (cur + 1) bal (by omega) (fun _ => hnol)
      (fun hb => (balanced_parts (hbal hb) heq hdepth hopd).1) with ⟨left, cur₁, hleft, resl⟩
    rcases ihr n { params' with fand := false } cur₁ bal (by omega) nofun
      (fun hb => (balanced_parts (hbal hb) heq hdepth hopd).2) with ⟨right, cur₂, hright, resr⟩
    have hflag : (if left.fand then ['&'] else [';']) = op := by
      rcases hop with rfl | rfl
      · have hamp' := resl.fand_of_simple (hamp hget)
        rw [hamp', hparams, if_pos hget]
        rfl
      · have hsemi : params' = params := by
          rw [hparams, if_neg]
          rw [hget]
          decide
        rcases hf : left.fand with _ | _
        · rfl
        · have := resl.fand_le hf
          rw [hsemi, hfand] at this
          cases this
    refine ⟨.table given cur left right, cur₂, ?_, rfl, ⟨hbal, resl.ok, resr.ok, ?_⟩, ?_, ?_, nofun,
      fun _ => ⟨mid, hscan⟩, nofun⟩
    · rw [analize_table hne hscan]
      simp only [createTableNode, ← hparams, hleft, hright, Except.ok_bind, Except.pure_eq]
    · rw [hflag, resl.given_eq, resr.given_eq]
      exact heq
    · have := resl.cur_le
      have := resr.cur_le
      omega
    · rintro (⟨hs, -⟩ | ⟨hs, -⟩)
      · rw [hscan] at hs
        cases hs
      · rw [hscan] at hs
        cases hs
  | @pipe given mid c hscan hl hr ihl ihr =>
    intro n params cur bal hlen hno hbal
    obtain ⟨n, rfl⟩ : ∃ k, n = k + 1 := ⟨n - 1, by omega⟩
    have hne : given ≠ [] := by
      rintro rfl
      cases hscan
    rcases pipe_parts hscan with ⟨heq, hdepth, hnol, hnor, hparts⟩
    rcases ihl n ⟨false, false⟩ (cur + 1) bal (by omega) nofun
      (fun hb => (balanced_parts (hbal hb) heq hdepth (by decide)).1) with
      ⟨left, cur₁, hleft, resl⟩
    rcases ihr n params cur₁ bal (by omega) (fun _ => hnor)
      (fun hb => (balanced_parts (hbal hb) heq hdepth (by decide)).2) with
      ⟨right, cur₂, hright, resr⟩
    have hnotable : ∀ {r : List Token}, NoTable 0 r →
        ¬∃ mid, scan (strip r) 0 0 none = .table mid := fun hno ⟨mid, hs⟩ =>
      scan_ne_table hno mid hs
    refine ⟨.pipe given cur left right, cur₂, ?_, rfl,
      ⟨hbal, resl.ok, resr.ok, fun ht => hnotable hnol (resl.table ht),
        fun ht => hnotable hnor (resr.table ht), ?_⟩, ?_, ?_, resr.fand_le, nofun, nofun⟩
    · rw [analize_pipe hne hscan]
      simp only [createPipeNode, hleft, hright, Except.ok_bind, Except.pure_eq]
    · rw [resl.given_eq, resr.given_eq]
      exact heq
    · have := resl.cur_le
      have := resr.cur_le
      omega
    · rintro (⟨hs, -⟩ | ⟨hs, hends⟩)
      · rw [hscan] at hs
        cases hs
      · rw [hscan] at hs
        cases hs
        exact resr.fand_of_simple hends
  | @curve given inner tail hscan hs hlast htail hinner hline ih =>
    intro n params cur bal hlen hno hbal
    obtain ⟨n, rfl⟩ : ∃ k, n = k + 1 := ⟨n - 1, by omega⟩
    have hle := length_strip_le given
    rw [hs] at hle
    simp only [List.length_cons, List.length_append] at hle
    rcases ih n ⟨false, true⟩ (cur + 1) bal (by omega) nofun (fun hb => hinner (hbal hb)) with
      ⟨left, cur', hleft, res⟩
    have hsplit : splitLast (strip given) = some (['('] :: inner, tail) := by
      rw [hs]
      exact splitLast_append (['('] :: inner) hlast
    refine ⟨.curve given cur (curveLoop false false tail) left, cur', ?_, rfl,
      ⟨hbal, res.ok, tail, by rw [res.given_eq]; exact hs, ?_, fun _ => htail.reads⟩, ?_, ?_,
      nofun, nofun, nofun⟩
    · rw [analize_curve hs hscan ⟨rfl, rfl⟩]
      simp only [createCurveNode, hsplit, List.drop_succ_cons, List.drop_zero, hleft,
        Except.ok_bind, Except.pure_eq]
    · intro t
      rcases htail.reads with h | h
      · exact Nat.le_of_eq (congrArg (List.count t) h)
      · refine Nat.le_of_eq ((congrArg (List.count t) h).trans ?_)
        rw [List.count_append, List.count_append, Nat.add_comm]
    · have := res.cur_le
      omega
    · rintro (⟨hs', hs'', hx⟩ | ⟨hs', -⟩)
      · rw [hscan] at hs'
        cases hs'
        rw [hs] at hs''
        cases hs''
        exact absurd ⟨rfl, rfl⟩ hx
      · rw [hscan] at hs'
        cases hs'
  | @simple given name ts c k hscan hs hx hname hleaf hk =>
    intro n params cur bal hlen hno hbal
    obtain ⟨n, rfl⟩ : ∃ k, n = k + 1 := ⟨n - 1, by omega⟩
    rcases hleaf.reads with ⟨hreads, hwords⟩
    have hle := length_strip_le given
    rw [hs, List.length_cons] at hle
    refine ⟨.simple given cur params name (getFilename name :: (simpleLoop 0 false false ts).1)
      (simpleLoop 0 false false ts).2, cur + 1, ?_, rfl, ⟨hbal, ts, hs, hname, hreads⟩, by omega,
      fun _ => rfl, id, nofun, nofun⟩
    rw [analize_simple hs hscan hx, createSimpleNode, if_neg]
    rw [List.length_cons, hwords]
    omega

/-! ### What is parsed is a command line -/

theorem Tree.Ok.balanced {bal : Prop} (h : t.Ok bal) (hb : bal) : Balanced t.given := by
  rcases t with _ | _ | _ | _ | _
  · exact ⟨rfl, fun p hp => by rw [List.prefix_nil.mp hp]; exact Int.le_refl 0⟩
  · exact h.1 hb
  · exact h.1 hb
  · exact h.1 hb
  · exact h.1 hb

/-- **A tree that stands for its range comes of a command line.** -/
theorem line_of_ok : ∀ (n : ℕ) (given : List Token) (params : Params) (cur : ℕ) (t : Tree)
    (cur' : ℕ), analizeCommand n given params cur = .ok (t, cur') → t.Ok True →
    Line given ∧ t.given = given ∧ (t.fand = true → EndsSimple given) := by
  intro n
  induction n with
  | zero => nofun
  | succ n ih =>
    intro given params cur t cur' h hok
    by_cases hne : given = []
    · rw [hne, analize_nil] at h
      cases h
      exact ⟨hne ▸ .empty, hne.symm, nofun⟩
    rcases hscan : scan (strip given) 0 0 none with mid | ⟨_ | mid, c⟩
    · -- a list
      rw [analize_table hne hscan, createTableNode] at h
      rcases table_parts hscan with ⟨op, hop, hget, heq, -⟩
      rcases Except.bind_eq_ok.mp h with ⟨⟨left, cur₁⟩, hleft, h⟩
      rcases Except.bind_eq_ok.mp h with ⟨⟨right, cur₂⟩, hright, h⟩
      cases h
      rcases hok with ⟨-, hokl, hokr, hrange⟩
      rcases ih _ _ _ _ _ hleft hokl with ⟨hlinel, hgivenl, hfand⟩
      rcases ih _ _ _ _ _ hright hokr with ⟨hliner, hgivenr, -⟩
      refine ⟨.table hscan hlinel hliner fun hamp => hfand ?_, rfl, nofun⟩
      -- the operator is read from the flag
      rw [hgivenl, hgivenr] at hrange
      have hop' := (List.append_inj (heq.symm.trans hrange) rfl).2
      rw [List.cons.injEq] at hop'
      rw [hget] at hamp
      rcases hf : left.fand with _ | _
      · rw [hf] at hop'
        rw [Option.some.inj hamp] at hop'
        exact absurd hop'.1 (by decide)
      · rfl
    · rcases hs : strip given with _ | ⟨x, xs⟩
      · rw [analize_seps hne hs] at h
        cases h
      by_cases hx : x.head? = some '(' ∧ c = 0
      · -- parentheses
        rw [analize_curve hs hscan hx, createCurveNode] at h
        rcases hl : splitLast (strip given) with _ | ⟨l, tail⟩
        · rw [hl] at h
          cases h
        rw [hl] at h
        rcases Except.bind_eq_ok.mp h with ⟨⟨left, cur₁⟩, hleft, h⟩
        cases h
        rcases hok with ⟨-, hokl, tail', hrange, -, hreads⟩
        rcases ih _ _ _ _ _ hleft hokl with ⟨hline, hgiven, -⟩
        rcases splitLast_eq hl with ⟨hsplit, hlast⟩
        rw [hgiven] at hrange
        rcases l with _ | ⟨y, inner⟩
        · rw [hsplit] at hrange
          cases hrange
        simp only [List.drop_succ_cons, List.drop_zero] at hrange hline hgiven
        rw [hsplit] at hrange
        simp only [List.cons_append, List.cons.injEq, List.append_cancel_left_eq, true_and]
          at hrange
        rcases hrange with ⟨rfl, rfl⟩
        refine ⟨.curve (hx.2 ▸ hscan) hsplit hlast (tail_of_reads (hreads trivial))
          (fun _ => hgiven ▸ hokl.balanced trivial) hline, rfl, nofun⟩
      · -- a simple command
        rw [analize_simple hs hscan hx, createSimpleNode] at h
        split at h
        · cases h
        · next hargs =>
          cases h
          rcases hok with ⟨-, ts, hrange, hname, hreads⟩
          rw [hs] at hrange
          cases hrange
          have hsize := hreads.length_eq
          simp only [List.tail_cons] at hsize
          have hleaf := (leaf_of_size xs.length xs false false (Nat.le_refl _)).2 hsize.symm
          rw [List.length_cons] at hargs
          exact ⟨.simple hscan hs hx hname hleaf (by omega), rfl, fun _ => .simple hscan hs hx⟩
    · -- a pipeline
      rw [analize_pipe hne hscan, createPipeNode] at h
      rcases Except.bind_eq_ok.mp h with ⟨⟨left, cur₁⟩, hleft, h⟩
      rcases Except.bind_eq_ok.mp h with ⟨⟨right, cur₂⟩, hright, h⟩
      cases h
      rcases hok with ⟨-, hokl, hokr, -, -, -⟩
      rcases ih _ _ _ _ _ hleft hokl with ⟨hlinel, -, -⟩
      rcases ih _ _ _ _ _ hright hokr with ⟨hliner, -, hfand⟩
      exact ⟨.pipe hscan hlinel hliner, rfl, fun hf => .pipe hscan (hfand hf)⟩

/-! ### The whole line -/

theorem strip_eq_nil {toks : List Token} : strip toks = [] ↔ toks.all isSep = true := by
  rw [strip, List.dropWhile_eq_nil_iff, List.all_eq_true]

/-- A line of separators only is no command line. -/
theorem Line.eq_nil {toks : List Token} (h : Line toks) (hs : strip toks = []) : toks = [] := by
  rcases h with _ | ⟨hscan, -⟩ | ⟨hscan, -⟩ | ⟨-, hrange, -⟩ | ⟨-, hrange, -⟩
  · rfl
  · rw [hs] at hscan
    cases hscan
  · rw [hs] at hscan
    cases hscan
  · rw [hs] at hrange
    cases hrange
  · rw [hs] at hrange
    cases hrange

/-- **The parser does what is asked of it on command lines**, and on no other balanced lines; it
returns on all. -/
theorem parsed_iff {toks : List Token} (hlen : toks.length ≤ 50) :
    (analizeCommand (toks.length + 1) toks ⟨false, false⟩ 0).Spares .outOfFuel ∧
      (Line toks → Parsed toks) ∧ (Balanced toks → Parsed toks → Line toks) := by
  refine ⟨analizeCommand_terminates _ _ _ _ (Nat.lt_succ_self _), fun hline => ?_,
    fun hbal ⟨t, cur, h, _, hcond⟩ => ?_⟩
  · rcases hline.result (toks.length + 1) ⟨false, false⟩ 0 (Balanced toks) (Nat.lt_succ_self _)
      nofun id with ⟨t, cur, h, res⟩
    have hcur := res.cur_le
    refine ⟨t, cur, h, by omega, ?_⟩
    split
    · next hall =>
      rw [hline.eq_nil (strip_eq_nil.mpr hall)] at h
      cases h
      rfl
    · next hall =>
      refine ⟨fun hnull => hall ?_, res.given_eq, res.ok⟩
      rw [res.null hnull]
      rfl
  · split at hcond
    · next hall =>
      by_cases hne : toks = []
      · exact hne ▸ .empty
      · rw [analize_seps hne (strip_eq_nil.mpr hall)] at h
        cases h
    · rcases hcond with ⟨-, -, hok⟩
      rw [eq_true hbal] at hok
      exact (line_of_ok _ _ _ _ _ _ h hok).1

/-- A command in the background, with its output at the end of a file, and another command. -/
theorem parsed_background : Parsed [['a'], ['>'], ['>'], ['f'], ['&'], ['b']] := by
  have hscan : scan (strip [['a'], ['>'], ['>'], ['f'], ['&'], ['b']]) 0 0 none = .table 4 := rfl
  refine (parsed_iff (by decide)).2.1 (.table hscan ?_ ?_ fun _ => ?_)
  · exact .simple rfl rfl (by decide) (by decide) (.append .nil) (by decide)
  · exact .simple rfl rfl (by decide) (by decide) .nil (by decide)
  · exact .simple rfl rfl (by decide)

/-- A separator alone reads outside of the line; a `>` before two words, a word behind a `)`, and
the `&` behind a `)` are lost. -/
theorem not_parsed :
    ¬Parsed [[';']] ∧ ¬Parsed [['a'], ['>'], ['b'], ['c']] ∧
      ¬Parsed [['('], ['a'], [')'], ['b']] ∧ ¬Parsed [['('], ['a'], [')'], ['&'], ['b']] := by
  refine ⟨?_, ?_, ?_, ?_⟩
  · rintro ⟨t, cur, h, -⟩
    cases h
  · rintro ⟨t, cur, h, -, -, -, hok⟩
    cases h
    rcases hok.2 with ⟨ts, hs, -, hreads⟩
    cases hs
    exact absurd hreads.length_eq (by decide)
  · rintro ⟨t, cur, h, -, -, -, hok⟩
    cases h
    rcases hok.2.2 with ⟨tail, hs, hcount, -⟩
    cases hs
    exact absurd (hcount ['b']) (by decide)
  · rintro ⟨t, cur, h, -, -, -, hok⟩
    cases h
    exact absurd hok.2.2.2 (by decide)

end Shell
end UnixV6pp
