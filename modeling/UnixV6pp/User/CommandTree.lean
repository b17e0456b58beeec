import Mathlib.Data.List.Basic
import Mathlib.Data.Int.Notation

/-!
# The command parser of the shell

`AnalizeCommand` works on a range of the tokens: it skips separators in front, looks for an
operator outside of parentheses, and makes a node of the parts.  A range is the list of its tokens
here, and a read outside of it is a fault; so is a word behind the ten places of `args`.

## Main definitions

* `Tree` — the nodes, linked as in `commandNodes`, each with the range it was made for.
* `scan`, `simpleLoop`, `curveLoop` — the loops.
* `analizeCommand` — the parser.
-/

namespace UnixV6pp
namespace Shell

/-- The text of a token. -/
abbrev Token := List Char

/-- The tokens that are removed in front of a range. -/
def isSep (t : Token) : Bool := t = ['&'] ∨ t = [';'] ∨ t = ['|']

/-- The tokens that are no words. -/
def IsOperator (t : Token) : Prop :=
  t ∈ [['&'], [';'], ['|'], ['('], [')'], ['<'], ['>']]

instance (t : Token) : Decidable (IsOperator t) := by unfold IsOperator; infer_instance

/-- `getFilename`: the text behind the last slash. -/
def getFilename (pathname : Token) : Token :=
  (pathname.reverse.takeWhile (· ≠ '/')).reverse

/-- `FAND` and `FPAR`, as they are passed down. -/
structure Params where
  fand : Bool
  fpar : Bool
deriving DecidableEq

/-- `fin`, `fout`, and whether `FCAT` is set. -/
structure Redirs where
  fin : Option Token
  fout : Option Token
  fcat : Bool
deriving DecidableEq

/-- A node with the nodes below it; `number` is its place in `commandNodes`, and `given` the range
of the call. -/
inductive Tree
  /-- No node, which is -1. -/
  | null
  /-- `TCOM`. -/
  | simple (given : List Token) (number : ℕ) (params : Params) (commandName : Token)
    (args : List Token) (redirs : Redirs)
  /-- `TPAR`. -/
  | curve (given : List Token) (number : ℕ) (redirs : Redirs) (left : Tree)
  /-- `TFIL`. -/
  | pipe (given : List Token) (number : ℕ) (left right : Tree)
  /-- `TLST`. -/
  | table (given : List Token) (number : ℕ) (left right : Tree)
deriving DecidableEq

inductive Fault
  | outOfFuel
  /-- A token outside of the range is read. -/
  | outOfRange
  /-- More than ten places of `args` are written. -/
  | argsFull
deriving DecidableEq

/-! ### The loops -/

/-- What the loop over the range finds. -/
inductive Scan
  /-- A `;` or `&` outside of parentheses. -/
  | table (mid : ℕ)
  /-- `firstPipe` and `curveCnt` at the end. -/
  | other (firstPipe : Option ℕ) (curveCnt : ℤ)
deriving DecidableEq

def scan : List Token → ℕ → ℤ → Option ℕ → Scan
  | [], _, curveCnt, firstPipe => .other firstPipe curveCnt
  | t :: ts, curArg, curveCnt, firstPipe =>
    if t = ['&'] ∨ t = [';'] then
      if curveCnt = 0 then .table curArg else scan ts (curArg + 1) curveCnt firstPipe
    else if t = ['|'] then
      scan ts (curArg + 1) curveCnt
        (if curveCnt = 0 ∧ firstPipe = none then some curArg else firstPipe)
    else if t = ['('] then scan ts (curArg + 1) (curveCnt + 1) firstPipe
    else if t = [')'] then scan ts (curArg + 1) (curveCnt - 1) firstPipe
    else scan ts (curArg + 1) curveCnt firstPipe

/-- What the loop of `CreateSimpleNode` stores from here on; it goes on behind `skip` more tokens,
and `hasIn` and `hasOut` say whether `fin` and `fout` are set already. -/
def simpleLoop : ℕ → Bool → Bool → List Token → List Token × Redirs
  | _, _, _, [] => ([], ⟨none, none, false⟩)
  | skip + 1, hasIn, hasOut, _ :: ts => simpleLoop skip hasIn hasOut ts
  | 0, hasIn, hasOut, t :: ts =>
    if t = ['<'] then
      if 1 ≤ ts.length ∧ ¬hasIn then
        let r := simpleLoop 1 true hasOut ts
        (r.1, { r.2 with fin := ts[0]? })
      else simpleLoop 0 hasIn hasOut ts
    else if t = ['>'] then
      if 2 ≤ ts.length ∧ ¬hasOut then
        -- with two tokens behind it the sign is dropped, unless the next one is a `>`
        if ts[0]? = some ['>'] then
          let r := simpleLoop 2 hasIn true ts
          (r.1, { r.2 with fout := ts[1]?, fcat := true })
        else simpleLoop 0 hasIn hasOut ts
      else if 1 ≤ ts.length ∧ ¬hasOut then
        let r := simpleLoop 1 hasIn true ts
        (r.1, { r.2 with fout := ts[0]? })
      else simpleLoop 0 hasIn hasOut ts
    else
      let r := simpleLoop 0 hasIn hasOut ts
      (t :: r.1, r.2)

/-- What the loop of `CreateCurveNode` stores from here on, for the tokens behind the `)`. -/
def curveLoop : Bool → Bool → List Token → Redirs
  | _, _, [] => ⟨none, none, false⟩
  | hasIn, hasOut, t :: ts =>
    if t = ['<'] then
      if 1 ≤ ts.length ∧ ¬hasIn then { curveLoop true hasOut ts with fin := ts[0]? }
      else curveLoop hasIn hasOut ts
    else if t = ['>'] then
      if 2 ≤ ts.length then
        if ts[0]? = some ['>'] then
          if hasOut then { curveLoop hasIn hasOut ts with fcat := true }
          else { curveLoop hasIn true ts with fout := ts[1]?, fcat := true }
        else curveLoop hasIn hasOut ts
      else if 1 ≤ ts.length ∧ ¬hasOut then { curveLoop hasIn true ts with fout := ts[0]? }
      else curveLoop hasIn hasOut ts
    else curveLoop hasIn hasOut ts

/-- The tokens before and behind the last `)`. -/
def splitLast : List Token → Option (List Token × List Token)
  | [] => none
  | t :: ts =>
    match splitLast ts with
    | some (l, r) => some (t :: l, r)
    | none => if t = [')'] then some ([], ts) else none

/-! ### The nodes -/

/-- A call of `AnalizeCommand`: a range, the parameters, and `curNode`. -/
abbrev Analize := List Token → Params → ℕ → Except Fault (Tree × ℕ)

/-- `CreateSimpleNode`, for a range of at least one token. -/
def createSimpleNode (given : List Token) (name : Token) (ts : List Token) (params : Params)
    (curNode : ℕ) : Except Fault (Tree × ℕ) :=
  let r := simpleLoop 0 false false ts
  let args := getFilename name :: r.1
  if args.length > 9 then .error .argsFull
  else .ok (.simple given curNode params name args r.2, curNode + 1)

/-- `CreateCurveNode`. -/
def createCurveNode (analize : Analize) (given range : List Token) (curNode : ℕ) :
    Except Fault (Tree × ℕ) :=
  match splitLast range with
  | none => .error .outOfRange
  | some (l, tail) => do
    let (left, cur) ← analize (l.drop 1) ⟨false, true⟩ (curNode + 1)
    return (.curve given curNode (curveLoop false false tail) left, cur)

/-- `CreatePipeNode`. -/
def createPipeNode (analize : Analize) (given range : List Token) (mid : ℕ) (params : Params)
    (curNode : ℕ) : Except Fault (Tree × ℕ) := do
  let (left, cur) ← analize (range.take mid) ⟨false, false⟩ (curNode + 1)
  let (right, cur) ← analize (range.drop (mid + 1)) params cur
  return (.pipe given curNode left right, cur)

/-- `CreateTableNode`. -/
def createTableNode (analize : Analize) (given range : List Token) (mid : ℕ) (params : Params)
    (curNode : ℕ) : Except Fault (Tree × ℕ) := do
  let params := if range[mid]? = some ['&'] then { params with fand := true } else params
  let (left, cur) ← analize (range.take mid) params (curNode + 1)
  let (right, cur) ← analize (range.drop (mid + 1)) { params with fand := false } cur
  return (.table given curNode left right, cur)

/-- `AnalizeCommand`, with a bound on the depth of the calls. -/
def analizeCommand : ℕ → Analize
  | 0, _, _, _ => .error .outOfFuel
  | n + 1, given, params, curNode =>
    if given = [] then .ok (.null, curNode)
    else
      let range := given.dropWhile isSep
      match scan range 0 0 none with
      | .table mid => createTableNode (analizeCommand n) given range mid params curNode
      | .other (some mid) _ => createPipeNode (analizeCommand n) given range mid params curNode
      | .other none curveCnt =>
        match range with
        | [] => .error .outOfRange
        | t :: ts =>
          -- the first character only
          if t.head? = some '(' ∧ curveCnt = 0 then
            createCurveNode (analizeCommand n) given range curNode
          else createSimpleNode given t ts params curNode

end Shell
end UnixV6pp
