import UnixV6pp.User.CommandTree
import Mathlib.Algebra.Ring.Int.Defs

/-!
# Command lines

## Main definitions

* `Line` — the command lines that the parser gets right.
* `Tree.Ok` — a tree stands for its range: the nodes hold the tokens of their ranges, in order, and
  the operators bind as they should.

## Main results

* `simpleLoop_spec`, `leaf_of_size` — a simple command.
* `curveLoop_spec`, `tail_of_reads` — what follows a `)`.
* `scan_table`, `scan_other` — what the scan of a range finds.
-/

namespace UnixV6pp
namespace Shell

/-- A range without the separators in front. -/
abbrev strip (given : List Token) : List Token := given.dropWhile isSep

/-- What a token does to the depth of parentheses. -/
def depth₁ (t : Token) : ℤ := if t = ['('] then 1 else if t = [')'] then -1 else 0

def depth (ts : List Token) : ℤ := (ts.map depth₁).sum

/-- No parenthesis is closed before it is opened, and all are closed. -/
def Balanced (ts : List Token) : Prop := depth ts = 0 ∧ ∀ p, p <+: ts → 0 ≤ depth p

/-! ### The grammar -/

/-- The tokens behind a command name, `n` words among them: `hasIn` and `hasOut` say that there
was a `<` or a `>` before.  A single `>` comes last. -/
inductive Leaf : Bool → Bool → List Token → ℕ → Prop
  | nil {i o} : Leaf i o [] 0
  | word {i o t ts n} : t ≠ ['<'] → t ≠ ['>'] → Leaf i o ts n → Leaf i o (t :: ts) (n + 1)
  | input {o f ts n} : Leaf true o ts n → Leaf false o (['<'] :: f :: ts) n
  | append {i g ts n} : Leaf i true ts n → Leaf i false (['>'] :: ['>'] :: g :: ts) n
  | output {i g} : Leaf i false [['>'], g] 0

/-- The tokens behind a `)`.  No redirection follows a single `>`, and a file name may look like a
redirection only where it is none. -/
inductive Tail : List Token → Prop
  | nil : Tail []
  | input (f) : Tail [['<'], f]
  | output (g) : Tail [['>'], g]
  | append (g) : Tail [['>'], ['>'], g]
  | inputOutput (f g) : f ≠ ['>'] → Tail [['<'], f, ['>'], g]
  | inputAppend (f g) : f ≠ ['>'] ∨ g = ['>'] → Tail [['<'], f, ['>'], ['>'], g]
  | appendInput (g f) : g ≠ ['<'] ∨ f = ['<'] → Tail [['>'], ['>'], g, ['<'], f]

/-- The last command of a pipeline is a simple one. -/
inductive EndsSimple : List Token → Prop
  | simple {given name ts curveCnt} : scan (strip given) 0 0 none = .other none curveCnt →
    strip given = name :: ts → ¬(name.head? = some '(' ∧ curveCnt = 0) → EndsSimple given
  | pipe {given mid curveCnt} : scan (strip given) 0 0 none = .other (some mid) curveCnt →
    EndsSimple ((strip given).drop (mid + 1)) → EndsSimple given

/-- A command line. -/
inductive Line : List Token → Prop
  | empty : Line []
  /-- Two lists, at the first `;` or `&`; a `&` follows a simple command. -/
  | table {given mid} : scan (strip given) 0 0 none = .table mid →
    Line ((strip given).take mid) → Line ((strip given).drop (mid + 1)) →
    ((strip given)[mid]? = some ['&'] → EndsSimple ((strip given).take mid)) → Line given
  /-- Two parts of a pipeline, at the first `|`. -/
  | pipe {given mid curveCnt} : scan (strip given) 0 0 none = .other (some mid) curveCnt →
    Line ((strip given).take mid) → Line ((strip given).drop (mid + 1)) → Line given
  /-- A line in parentheses; the first one is closed by the last one. -/
  | curve {given inner tail} : scan (strip given) 0 0 none = .other none 0 →
    strip given = ['('] :: (inner ++ [')'] :: tail) → [')'] ∉ tail → Tail tail →
    (Balanced given → Balanced inner) → Line inner → Line given
  /-- A name and at most eight words. -/
  | simple {given name ts curveCnt n} : scan (strip given) 0 0 none = .other none curveCnt →
    strip given = name :: ts → ¬(name.head? = some '(' ∧ curveCnt = 0) → ¬IsOperator name →
    Leaf false false ts n → n ≤ 8 → Line given

/-! ### What a tree stands for -/

/-- A row of tokens reads as words and redirections, in any order. -/
inductive Reads : List Token → List Token → Redirs → Prop
  | nil : Reads [] [] ⟨none, none, false⟩
  | word {t ts ws r} : Reads ts ws r → Reads (t :: ts) (t :: ws) r
  | input {f ts ws o c} : Reads ts ws ⟨none, o, c⟩ → Reads (['<'] :: f :: ts) ws ⟨some f, o, c⟩
  | output {g ts ws i} : Reads ts ws ⟨i, none, false⟩ →
    Reads (['>'] :: g :: ts) ws ⟨i, some g, false⟩
  | append {g ts ws i} : Reads ts ws ⟨i, none, false⟩ →
    Reads (['>'] :: ['>'] :: g :: ts) ws ⟨i, some g, true⟩

namespace Redirs

def input (r : Redirs) : List Token :=
  match r.fin with
  | none => []
  | some f => [['<'], f]

def output (r : Redirs) : List Token :=
  match r.fout with
  | none => []
  | some g => if r.fcat then [['>'], ['>'], g] else [['>'], g]

end Redirs

namespace Tree

def given : Tree → List Token
  | null => []
  | simple g .. | curve g .. | pipe g .. | table g .. => g

/-- Whether the command waits for its end; the flag of the last command of a pipeline. -/
def fand : Tree → Bool
  | simple _ _ params .. => params.fand
  | pipe _ _ _ right => right.fand
  | null | curve .. | table .. => false

def IsTable : Tree → Prop
  | table .. => True
  | _ => False

/-- The nodes stand for their ranges.  `bal` says that the parentheses of the whole line are
balanced; those of every range are then, and what follows a `)` is in order. -/
def Ok (bal : Prop) : Tree → Prop
  | null => True
  | simple given _ _ name args redirs => (bal → Balanced given) ∧
    ∃ ts, strip given = name :: ts ∧ ¬IsOperator name ∧ Reads ts args.tail redirs
  | curve given _ redirs left => (bal → Balanced given) ∧ left.Ok bal ∧
    ∃ tail, strip given = ['('] :: (left.given ++ [')'] :: tail) ∧
      (∀ t, tail.count t ≤ (redirs.input ++ redirs.output).count t) ∧
      (bal → tail = redirs.input ++ redirs.output ∨ tail = redirs.output ++ redirs.input)
  | pipe given _ left right => (bal → Balanced given) ∧ left.Ok bal ∧ right.Ok bal ∧
    ¬left.IsTable ∧ ¬right.IsTable ∧ strip given = left.given ++ ['|'] :: right.given
  | table given _ left right => (bal → Balanced given) ∧ left.Ok bal ∧ right.Ok bal ∧
    strip given = left.given ++ (if left.fand then ['&'] else [';']) :: right.given

end Tree

/-- **What is asked of the parser**: it returns, without reading outside of its ranges and with at
most 50 nodes; no tree for separators alone, and otherwise one that stands for the line. -/
def Parsed (toks : List Token) : Prop :=
  ∃ t cur, analizeCommand (toks.length + 1) toks ⟨false, false⟩ 0 = .ok (t, cur) ∧ cur ≤ 50 ∧
    if toks.all isSep then t = .null
    else t ≠ .null ∧ t.given = toks ∧ t.Ok (Balanced toks)

/-! ### Depth -/

@[simp] theorem depth_nil : depth [] = 0 := rfl

@[simp] theorem depth_cons (t : Token) (ts : List Token) :
    depth (t :: ts) = depth₁ t + depth ts := by
  simp [depth]

@[simp] theorem depth_append (l r : List Token) : depth (l ++ r) = depth l + depth r := by
  simp [depth]

theorem depth₁_of_isSep {t : Token} (h : isSep t) : depth₁ t = 0 := by
  simp only [isSep, decide_eq_true_eq] at h
  rcases h with rfl | rfl | rfl <;> decide

theorem depth_takeWhile (ts : List Token) : depth (ts.takeWhile isSep) = 0 := by
  induction ts with
  | nil => rfl
  | cons t ts ih =>
    rw [List.takeWhile_cons]
    split
    · next h => rw [depth_cons, depth₁_of_isSep h, ih, Int.add_zero]
    · rfl

/-- The part behind a prefix of depth 0. -/
theorem Balanced.of_append {l r : List Token} (h : Balanced (l ++ r)) (hl : depth l = 0) :
    Balanced r := by
  refine ⟨?_, fun p hp => ?_⟩
  · have := h.1
    rw [depth_append, hl] at this
    omega
  · rcases hp with ⟨s, rfl⟩
    have := h.2 (l ++ p) ⟨s, by rw [List.append_assoc]⟩
    rw [depth_append, hl] at this
    omega

/-- A prefix of depth 0. -/
theorem Balanced.of_left {l r : List Token} (h : Balanced (l ++ r)) (hl : depth l = 0) :
    Balanced l :=
  ⟨hl, fun p hp => h.2 p (hp.trans (List.prefix_append l r))⟩

theorem strip_append (given : List Token) : given.takeWhile isSep ++ strip given = given :=
  List.takeWhile_append_dropWhile

theorem Balanced.strip {given : List Token} (h : Balanced given) : Balanced (strip given) := by
  rw [← strip_append given] at h
  exact h.of_append (depth_takeWhile given)

/-! ### Simple commands -/

namespace Redirs

/-- The tokens that are kept. -/
def size (r : Redirs) : ℕ := r.input.length + r.output.length

theorem size_with_fin {r : Redirs} (h : r.fin = none) (f : Token) :
    ({ r with fin := some f } : Redirs).size = r.size + 2 := by
  simp only [size, input, output, h, List.length_cons, List.length_nil]
  omega

theorem size_with_fout {r : Redirs} (h : r.fout = none) (g : Token) (c : Bool) :
    ({ r with fout := some g, fcat := c } : Redirs).size = r.size + if c then 3 else 2 := by
  cases c <;> simp [size, input, output, h]

end Redirs

theorem Reads.length_eq {ts ws : List Token} {r : Redirs} (h : Reads ts ws r) :
    ts.length = ws.length + r.size := by
  induction h with
  | nil => rfl
  | word _ ih =>
    simp only [List.length_cons, ih]
    omega
  | @input f ts ws o c _ ih =>
    have hsize := Redirs.size_with_fin (r := ⟨none, o, c⟩) rfl f
    simp only [List.length_cons, ih, hsize]
    omega
  | @output g ts ws i _ ih =>
    have hsize := Redirs.size_with_fout (r := ⟨i, none, false⟩) rfl g false
    simp only [List.length_cons, ih, hsize]
    simp
    omega
  | @append g ts ws i _ ih =>
    have hsize := Redirs.size_with_fout (r := ⟨i, none, false⟩) rfl g true
    simp only [List.length_cons, ih, hsize]
    simp
    omega

theorem simpleLoop_drop (skip : ℕ) (i o : Bool) (ts : List Token) :
    simpleLoop skip i o ts = simpleLoop 0 i o (ts.drop skip) := by
  induction ts generalizing skip with
  | nil => cases skip <;> rfl
  | cons t ts ih =>
    cases skip with
    | zero => rfl
    | succ skip => exact ih skip

/-- What is set is not set again. -/
theorem simpleLoop_set (ts : List Token) : ∀ skip i o,
    (i = true → (simpleLoop skip i o ts).2.fin = none) ∧
      (o = true → (simpleLoop skip i o ts).2.fout = none ∧
        (simpleLoop skip i o ts).2.fcat = false) := by
  induction ts with
  | nil => exact fun skip _ _ => by cases skip <;> simp [simpleLoop]
  | cons t ts ih =>
    intro skip i o
    cases skip with
    | succ skip => exact ih skip i o
    | zero =>
      unfold simpleLoop
      split_ifs with h₁ h₂ h₃ h₄ h₅
      · exact ⟨fun hi => absurd hi h₂.2, (ih 1 true o).2⟩
      · exact ih 0 i o
      · exact ⟨(ih 2 i true).1, fun ho => absurd ho h₄.2⟩
      · exact ih 0 i o
      · next h => exact ⟨(ih 1 i true).1, fun ho => absurd ho h.2⟩
      · exact ih 0 i o
      · exact ih 0 i o

/-- **A simple command holds its tokens.** -/
theorem Leaf.reads {i o : Bool} {ts : List Token} {n : ℕ} (h : Leaf i o ts n) :
    Reads ts (simpleLoop 0 i o ts).1 (simpleLoop 0 i o ts).2 ∧
      (simpleLoop 0 i o ts).1.length = n := by
  induction h with
  | nil => exact ⟨.nil, rfl⟩
  | word h₁ h₂ _ ih =>
    unfold simpleLoop
    rw [if_neg h₁, if_neg h₂]
    exact ⟨.word ih.1, by simp [ih.2]⟩
  | @input o f ts n _ ih =>
    unfold simpleLoop
    rw [if_pos rfl, if_pos ⟨by simp, by simp⟩, simpleLoop_drop]
    have hnone := (simpleLoop_set ts 0 true o).1 rfl
    refine ⟨.input ?_, ih.2⟩
    simp only [List.drop_succ_cons, List.drop_zero]
    rw [← hnone]
    exact ih.1
  | @append i g ts n _ ih =>
    unfold simpleLoop
    rw [if_neg (by decide), if_pos rfl, if_pos ⟨by simp, by simp⟩, if_pos (by simp),
      simpleLoop_drop]
    have hnone := (simpleLoop_set ts 0 i true).2 rfl
    refine ⟨.append ?_, ih.2⟩
    simp only [List.drop_succ_cons, List.drop_zero]
    rw [← hnone.1, ← hnone.2]
    exact ih.1
  | @output i g =>
    unfold simpleLoop
    rw [if_neg (by decide), if_pos rfl, if_neg (by simp), if_pos ⟨by simp, by simp⟩,
      simpleLoop_drop]
    exact ⟨.output .nil, rfl⟩

/-- **No more is held than there is**, and as much only of a proper command. -/
theorem leaf_of_size : ∀ (m : ℕ) (ts : List Token) (i o : Bool), ts.length ≤ m →
    (simpleLoop 0 i o ts).1.length + (simpleLoop 0 i o ts).2.size ≤ ts.length ∧
      ((simpleLoop 0 i o ts).1.length + (simpleLoop 0 i o ts).2.size = ts.length →
        Leaf i o ts (simpleLoop 0 i o ts).1.length) := by
  intro m
  induction m with
  | zero =>
    intro ts i o hlen
    rw [List.length_eq_zero_iff.mp (Nat.le_zero.mp hlen)]
    exact ⟨Nat.le_refl 0, fun _ => .nil⟩
  | succ m ih =>
    intro ts i o hlen
    rcases ts with _ | ⟨t, ts⟩
    · exact ⟨Nat.le_refl 0, fun _ => .nil⟩
    have hlen : ts.length ≤ m := by simpa using hlen
    -- a token that is dropped
    have hdrop : (simpleLoop 0 i o ts).1.length + (simpleLoop 0 i o ts).2.size ≤
        (t :: ts).length ∧ ((simpleLoop 0 i o ts).1.length + (simpleLoop 0 i o ts).2.size =
          (t :: ts).length → Leaf i o (t :: ts) (simpleLoop 0 i o ts).1.length) := by
      have hle := (ih ts i o hlen).1
      rw [List.length_cons]
      exact ⟨by omega, fun heq => by omega⟩
    unfold simpleLoop
    split_ifs with hin hset hout htwo hcat hone
    · -- `<` and a file name
      rcases ts with _ | ⟨f, ts⟩
      · exact absurd hset.1 (by simp)
      rw [simpleLoop_drop]
      have hrest := ih ts true o (by simp at hlen; omega)
      have hnone := (simpleLoop_set ts 0 true o).1 rfl
      have hsize := Redirs.size_with_fin hnone f
      simp only [List.drop_succ_cons, List.drop_zero, List.getElem?_cons_zero, hsize,
        List.length_cons]
      refine ⟨by omega, fun heq => ?_⟩
      have hi : i = false := by simpa using hset.2
      rw [hin, hi]
      exact .input (hrest.2 (by omega))
    · exact hdrop
    · -- `>>` and a file name
      rcases ts with _ | ⟨a, _ | ⟨g, ts⟩⟩
      · exact absurd htwo.1 (by simp)
      · exact absurd htwo.1 (by simp)
      rw [simpleLoop_drop]
      have hrest := ih ts i true (by simp at hlen; omega)
      have hnone := (simpleLoop_set ts 0 i true).2 rfl
      have hsize := Redirs.size_with_fout hnone.1 g true
      simp only [List.drop_succ_cons, List.drop_zero, List.getElem?_cons_zero,
        List.getElem?_cons_succ, hsize, List.length_cons, if_true]
      refine ⟨by omega, fun heq => ?_⟩
      have ho : o = false := by simpa using htwo.2
      have ha : a = ['>'] := by simpa using hcat
      rw [hout, ho, ha]
      exact .append (hrest.2 (by omega))
    · exact hdrop
    · -- `>` and a file name at the end
      rcases ts with _ | ⟨g, _ | ⟨b, ts⟩⟩
      · exact absurd hone.1 (by simp)
      · rw [simpleLoop_drop]
        have ho : o = false := by simpa using hone.2
        rw [hout, ho]
        exact ⟨Nat.le_refl 2, fun _ => .output⟩
      · exact absurd ⟨by simp, hone.2⟩ htwo
    · exact hdrop
    · -- a word
      have hrest := ih ts i o hlen
      simp only [List.length_cons]
      refine ⟨by omega, fun heq => ?_⟩
      exact .word hin hout (hrest.2 (by omega))

/-! ### Redirections behind a parenthesis -/

/-- **The redirections are kept.** -/
theorem Tail.reads {tail : List Token} (h : Tail tail) :
    let r := curveLoop false false tail
    tail = r.input ++ r.output ∨ tail = r.output ++ r.input := by
  rcases h with _ | f | g | g | ⟨f, g, hf⟩ | ⟨f, g, hfg⟩ | ⟨g, f, hgf⟩
  · exact .inl rfl
  · by_cases h₁ : f = ['<'] <;> by_cases h₂ : f = ['>'] <;>
      simp [curveLoop, Redirs.input, Redirs.output, h₁, h₂]
  · by_cases h₁ : g = ['<'] <;> by_cases h₂ : g = ['>'] <;>
      simp [curveLoop, Redirs.input, Redirs.output, h₁, h₂]
  · by_cases h₁ : g = ['<'] <;> by_cases h₂ : g = ['>'] <;>
      simp [curveLoop, Redirs.input, Redirs.output, h₁, h₂]
  · by_cases h₁ : g = ['<'] <;> by_cases h₂ : g = ['>'] <;> by_cases h₃ : f = ['<'] <;>
      simp [curveLoop, Redirs.input, Redirs.output, h₁, h₂, h₃, hf]
  · rcases hfg with hf | rfl
    · by_cases h₁ : g = ['<'] <;> by_cases h₂ : g = ['>'] <;> by_cases h₃ : f = ['<'] <;>
        simp [curveLoop, Redirs.input, Redirs.output, h₁, h₂, h₃, hf]
    · by_cases h₁ : f = ['<'] <;> by_cases h₂ : f = ['>'] <;>
        simp [curveLoop, Redirs.input, Redirs.output, h₁, h₂]
  · rcases hgf with hg | rfl
    · by_cases h₁ : f = ['<'] <;> by_cases h₂ : f = ['>'] <;> by_cases h₃ : g = ['>'] <;>
        simp [curveLoop, Redirs.input, Redirs.output, h₁, h₂, h₃, hg]
    · by_cases h₁ : g = ['<'] <;> by_cases h₂ : g = ['>'] <;>
        simp [curveLoop, Redirs.input, Redirs.output, h₁, h₂]

/-- **Other tails are not kept.** -/
theorem tail_of_reads {tail : List Token}
    (h : tail = (curveLoop false false tail).input ++ (curveLoop false false tail).output ∨
      tail = (curveLoop false false tail).output ++ (curveLoop false false tail).input) :
    Tail tail := by
  rcases hr : curveLoop false false tail with ⟨fin, fout, fcat⟩
  rw [hr] at h
  rcases fin with _ | f <;> rcases fout with _ | g <;> rcases fcat with _ | _ <;>
    simp only [Redirs.input, Redirs.output, List.nil_append, List.append_nil, or_self, if_true,
      Bool.false_eq_true, if_false, List.cons_append] at h
  · exact h ▸ .nil
  · exact h ▸ .nil
  · exact h ▸ .output g
  · exact h ▸ .append g
  · exact h ▸ .input f
  · exact h ▸ .input f
  · rcases h with rfl | rfl
    · refine .inputOutput f g ?_
      rintro rfl
      simp [curveLoop] at hr
    · exfalso
      by_cases h₁ : g = ['>'] <;> by_cases h₂ : g = ['<'] <;> simp [curveLoop, h₁, h₂] at hr
  · rcases h with rfl | rfl
    · refine .inputAppend f g ?_
      by_cases h₁ : f = ['>']
      · subst h₁
        simp [curveLoop] at hr
        exact .inr hr.symm
      · exact .inl h₁
    · refine .appendInput g f ?_
      by_cases h₁ : g = ['<']
      · subst h₁
        simp [curveLoop] at hr
        exact .inr hr.symm
      · exact .inl h₁

end Shell
end UnixV6pp
