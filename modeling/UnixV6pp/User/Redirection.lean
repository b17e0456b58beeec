import UnixV6pp.User.ShellGrammar

/-!
# Redirections of a simple command

Behind the command name stand words and redirections in any order; `>>` comes as two tokens.
`CreateSimpleNode` tells a `>` from a `>>` only where at least two tokens follow, and there it
takes a single `>` for nothing at all: its operand becomes an argument.

## Main definitions

* `Item`, `tokens` — what stands behind a command name, and its tokens.
* `expected` — the arguments and the redirections as they are written.
* `LastOutput` — a single `>` comes last.

## Main results

* `simpleLoop_items`, `simpleLoop_lost` — what the loop stores in the one case and the other.
* `createSimpleNode_iff` — **the node is the one that is written** exactly where a single `>` comes
  last and the arguments fit into the node.
-/

namespace UnixV6pp
namespace Shell

/-! ### Simple commands -/

/-- A token that is no sign of a redirection. -/
abbrev Word := {t : Token // t ≠ ['<'] ∧ t ≠ ['>']}

/-- A part of a simple command behind its name. -/
inductive Item
  | word (w : Word)
  | input (f : Word)
  | output (g : Word)
  | append (g : Word)
deriving DecidableEq

namespace Item

def tokens : Item → List Token
  | word w => [w.1]
  | input f => [['<'], f.1]
  | output g => [['>'], g.1]
  | append g => [['>'], ['>'], g.1]

/-- The argument, if the item is one. -/
def word? : Item → Option Token
  | word w => some w.1
  | _ => none

/-- The operand of `<`. -/
def fin? : Item → Option Token
  | input f => some f.1
  | _ => none

/-- The operand of `>` or `>>`. -/
def fout? : Item → Option Token
  | output g => some g.1
  | append g => some g.1
  | _ => none

def isAppend : Item → Bool
  | append _ => true
  | _ => false

end Item

def tokens (items : List Item) : List Token := items.flatMap Item.tokens

def words (items : List Item) : List Token := items.filterMap Item.word?

def inputs (items : List Item) : List Token := items.filterMap Item.fin?

def outputs (items : List Item) : List Token := items.filterMap Item.fout?

/-- The redirections as they are written. -/
def written (items : List Item) : Redirs :=
  ⟨(inputs items).head?, (outputs items).head?, items.any Item.isAppend⟩

/-- The node of a command as it is written. -/
def expected (name : Token) (items : List Item) (params : Params) (curNode : ℕ) : Tree :=
  .simple (name :: tokens items) curNode params name (getFilename name :: words items)
    (written items)

/-- A single `>` and its operand come last. -/
def LastOutput (items : List Item) : Prop :=
  ∀ before g behind, items = before ++ .output g :: behind → behind = []

theorem lastOutput_cons {x : Item} {items : List Item} :
    LastOutput (x :: items) ↔ (∀ g, x = .output g → items = []) ∧ LastOutput items := by
  constructor
  · intro h
    constructor
    · rintro g rfl
      exact h [] g items rfl
    · rintro before g behind rfl
      exact h (x :: before) g behind rfl
  · rintro ⟨hfirst, hrest⟩ before g behind heq
    cases before with
    | nil =>
      obtain ⟨hx, hitems⟩ := List.cons.inj heq
      rw [← hitems, hfirst g hx]
    | cons y before => exact hrest before g behind (List.cons.inj heq).2

theorem tokens_cons (x : Item) (items : List Item) :
    tokens (x :: items) = x.tokens ++ tokens items :=
  List.flatMap_cons

theorem tokens_ne_nil {items : List Item} (h : items ≠ []) : tokens items ≠ [] := by
  cases items with
  | nil => exact absurd rfl h
  | cons x items =>
    rw [tokens_cons]
    cases x <;> simp [Item.tokens]

/-! ### The loop -/

/-- A word is stored. -/
theorem simpleLoop_word (i o : Bool) (w : Word) (ts : List Token) :
    simpleLoop 0 i o (w.1 :: ts) = (w.1 :: (simpleLoop 0 i o ts).1, (simpleLoop 0 i o ts).2) := by
  rw [simpleLoop, if_neg w.2.1, if_neg w.2.2]

/-- The first `<` takes its operand. -/
theorem simpleLoop_input (o : Bool) (f : Word) (ts : List Token) :
    simpleLoop 0 false o (['<'] :: f.1 :: ts) =
      ((simpleLoop 0 true o ts).1, { (simpleLoop 0 true o ts).2 with fin := some f.1 }) := by
  rw [simpleLoop, if_pos rfl, if_pos (by simp), simpleLoop_drop]
  rfl

/-- The first `>>` takes its operand. -/
theorem simpleLoop_append (i : Bool) (g : Word) (ts : List Token) :
    simpleLoop 0 i false (['>'] :: ['>'] :: g.1 :: ts) =
      ((simpleLoop 0 i true ts).1,
        { (simpleLoop 0 i true ts).2 with fout := some g.1, fcat := true }) := by
  rw [simpleLoop, if_neg (by decide), if_pos rfl, if_pos (by simp), if_pos (by simp),
    simpleLoop_drop]
  rfl

/-- A single `>` takes the last token. -/
theorem simpleLoop_output (i : Bool) (g : Word) :
    simpleLoop 0 i false [['>'], g.1] = ([], ⟨none, some g.1, false⟩) := by
  rw [simpleLoop, if_neg (by decide), if_pos rfl, if_neg (by simp), if_pos (by simp),
    simpleLoop_drop]
  rfl

/-- With more behind its operand a single `>` is dropped. -/
theorem simpleLoop_dropped (i : Bool) (g : Word) {ts : List Token} (h : ts ≠ []) :
    simpleLoop 0 i false (['>'] :: g.1 :: ts) = simpleLoop 0 i false (g.1 :: ts) := by
  have hlen : 2 ≤ (g.1 :: ts).length := by
    cases ts with
    | nil => exact absurd rfl h
    | cons t ts => simp
  have hne : ¬ (g.1 :: ts)[0]? = some ['>'] := fun he => g.2.2 (Option.some.inj he)
  rw [simpleLoop, if_neg (by decide), if_pos rfl, if_pos ⟨hlen, by simp⟩, if_neg hne]

/-- **A command with a single `>` at its end only is read as it is written.** -/
theorem simpleLoop_items {items : List Item} {i o : Bool} (h : LastOutput items)
    (hi : (inputs items).length ≤ if i then 0 else 1)
    (ho : (outputs items).length ≤ if o then 0 else 1) :
    simpleLoop 0 i o (tokens items) = (words items, written items) := by
  induction items generalizing i o with
  | nil => rfl
  | cons x items ih =>
    obtain ⟨hlast, hrest⟩ := lastOutput_cons.mp h
    rw [tokens_cons]
    cases x with
    | word w =>
      change simpleLoop 0 i o (w.1 :: tokens items) = _
      rw [simpleLoop_word, ih hrest hi ho]
      rfl
    | input f =>
      have hzero : i = false ∧ (inputs items).length = 0 := by
        change (inputs items).length + 1 ≤ _ at hi
        cases i <;> simp_all
      obtain ⟨rfl, hnone⟩ := hzero
      change simpleLoop 0 false o (['<'] :: f.1 :: tokens items) = _
      rw [simpleLoop_input, ih hrest (by simp [hnone]) ho]
      rfl
    | output g =>
      have hzero : o = false := by
        change (outputs items).length + 1 ≤ _ at ho
        cases o <;> simp_all
      obtain rfl := hzero
      rw [hlast g rfl]
      exact simpleLoop_output i g
    | append g =>
      have hzero : o = false ∧ (outputs items).length = 0 := by
        change (outputs items).length + 1 ≤ _ at ho
        cases o <;> simp_all
      obtain ⟨rfl, hnone⟩ := hzero
      change simpleLoop 0 i false (['>'] :: ['>'] :: g.1 :: tokens items) = _
      rw [simpleLoop_append, ih hrest hi (by simp [hnone])]
      rfl

/-- Behind the only output redirection none is found. -/
theorem simpleLoop_fout {items : List Item} (i o : Bool) (h : outputs items = []) :
    (simpleLoop 0 i o (tokens items)).2.fout = none := by
  induction items generalizing i with
  | nil => rfl
  | cons x items ih =>
    rw [tokens_cons]
    cases x with
    | word w =>
      change (simpleLoop 0 i o (w.1 :: tokens items)).2.fout = none
      rw [simpleLoop_word]
      exact ih i h
    | input f =>
      change (simpleLoop 0 i o (['<'] :: f.1 :: tokens items)).2.fout = none
      cases i with
      | false =>
        rw [simpleLoop_input]
        exact ih true h
      | true =>
        -- a second `<` is dropped, and its operand is a word
        rw [simpleLoop, if_pos rfl, if_neg (by simp), simpleLoop_word]
        exact ih true h
    | output g => exact absurd h (by simp [outputs, Item.fout?])
    | append g => exact absurd h (by simp [outputs, Item.fout?])

/-- **A single `>` that is not at the end is lost.** -/
theorem simpleLoop_lost {items : List Item} (i : Bool) (h : ¬ LastOutput items)
    (ho : (outputs items).length ≤ 1) :
    (simpleLoop 0 i false (tokens items)).2.fout = none := by
  induction items generalizing i with
  | nil => exact absurd (fun _ _ _ heq => absurd heq (by simp)) h
  | cons x items ih =>
    rw [lastOutput_cons] at h
    rw [tokens_cons]
    cases x with
    | word w =>
      change (simpleLoop 0 i false (w.1 :: tokens items)).2.fout = none
      rw [simpleLoop_word]
      exact ih i (fun hrest => h ⟨fun _ heq => (by cases heq), hrest⟩) ho
    | input f =>
      have hlost := fun i => ih i (fun hrest => h ⟨fun _ heq => (by cases heq), hrest⟩) ho
      change (simpleLoop 0 i false (['<'] :: f.1 :: tokens items)).2.fout = none
      cases i with
      | false =>
        rw [simpleLoop_input]
        -- the flag for `fin` does not matter for `fout`
        exact hlost true
      | true =>
        rw [simpleLoop, if_pos rfl, if_neg (by simp), simpleLoop_word]
        exact hlost true
    | output g =>
      have hnone : outputs items = [] := by
        change (outputs items).length + 1 ≤ 1 at ho
        exact List.eq_nil_of_length_eq_zero (by omega)
      have hne : items ≠ [] := by
        rintro rfl
        exact h ⟨fun _ _ => rfl, fun _ _ _ heq => absurd heq (by simp)⟩
      change (simpleLoop 0 i false (['>'] :: g.1 :: tokens items)).2.fout = none
      rw [simpleLoop_dropped i g (tokens_ne_nil hne), simpleLoop_word]
      exact simpleLoop_fout i false hnone
    | append g =>
      have hnone : outputs items = [] := by
        change (outputs items).length + 1 ≤ 1 at ho
        exact List.eq_nil_of_length_eq_zero (by omega)
      refine absurd ⟨fun _ heq => (by cases heq), fun before g' behind heq => ?_⟩ h
      rw [heq] at hnone
      exact absurd hnone (by simp [outputs, Item.fout?])

theorem written_fout {items : List Item} (h : ¬ LastOutput items) :
    (written items).fout ≠ none := by
  intro hnone
  refine h fun before g behind heq => ?_
  have hempty : outputs items = [] := List.head?_eq_none_iff.mp hnone
  rw [heq] at hempty
  exact absurd hempty (by simp [outputs, Item.fout?])

/-! ### The node -/

/-- **The node is the one that is written** exactly where a single `>` comes last and the arguments
fit into the node. -/
theorem createSimpleNode_iff (name : Token) {items : List Item} (params : Params) (curNode : ℕ)
    (hi : (inputs items).length ≤ 1) (ho : (outputs items).length ≤ 1) :
    createSimpleNode (name :: tokens items) name (tokens items) params curNode =
        .ok (expected name items params curNode, curNode + 1) ↔
      LastOutput items ∧ (words items).length ≤ 8 := by
  unfold createSimpleNode
  constructor
  · intro h
    dsimp only at h
    split at h
    next => cases h
    next hfull =>
      have heq := Except.ok.inj h
      have hlast : LastOutput items := by
        by_contra hlost
        have hnone := simpleLoop_lost false hlost ho
        have hredirs : (simpleLoop 0 false false (tokens items)).2 = written items := by
          have hnode := congrArg Prod.fst heq
          simp only [expected, Tree.simple.injEq] at hnode
          exact hnode.2.2.2.2.2
        exact written_fout hlost (hredirs ▸ hnone)
      refine ⟨hlast, ?_⟩
      have hloop := simpleLoop_items (i := false) (o := false) hlast hi ho
      rw [hloop, List.length_cons] at hfull
      dsimp only at hfull
      omega
  · rintro ⟨hlast, hlen⟩
    have hloop := simpleLoop_items (i := false) (o := false) hlast hi ho
    rw [hloop]
    dsimp only
    rw [if_neg (by rw [List.length_cons]; omega)]
    rfl

/-- `a/cmd < in x >> out y`. -/
theorem createSimpleNode_iff_append :
    let items := [.input ⟨"in".toList, by decide⟩, .word ⟨"x".toList, by decide⟩,
      .append ⟨"out".toList, by decide⟩, .word ⟨"y".toList, by decide⟩]
    createSimpleNode ("a/cmd".toList :: tokens items) "a/cmd".toList (tokens items)
        ⟨false, false⟩ 0 = .ok (expected "a/cmd".toList items ⟨false, false⟩ 0, 0 + 1) := by
  refine (createSimpleNode_iff _ _ _ (by decide) (by decide)).mpr ⟨?_, by decide⟩
  iterate 4 refine lastOutput_cons.mpr ⟨fun _ heq => (by cases heq), ?_⟩
  exact fun _ _ _ heq => absurd heq (by simp)

/-- `cmd > out x` passes the name of the file as an argument. -/
theorem exists_passed : ∃ (name : Token) (items : List Item), (inputs items).length ≤ 1 ∧
    (outputs items).length ≤ 1 ∧
    createSimpleNode (name :: tokens items) name (tokens items) ⟨false, false⟩ 0 ≠
      .ok (expected name items ⟨false, false⟩ 0, 0 + 1) :=
  ⟨"cmd".toList, [.output ⟨"out".toList, by decide⟩, .word ⟨"x".toList, by decide⟩],
    by decide, by decide, by decide⟩

end Shell
end UnixV6pp
