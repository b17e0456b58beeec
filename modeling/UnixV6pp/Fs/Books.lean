import UnixV6pp.Fs.Kernel
import UnixV6pp.Lib.Tally

/-!
# What the counts count

The tables as an accountant sees them: every count beside what it is a count of.  A
reference to an inode is in the hands of a process, or belongs to a current directory,
an open file, a text segment or the root; a file is named by descriptors, a text segment
used by processes.

* `Books` — the accounts; `Books.Ok` — they are right.
* `hold`, `seize`, `discharge`, `clone` and others — how they change.
* `Ok.hold`, `Ok.discharge`, … — **each change keeps them right.**
* `Ok.quiet` — when nobody has anything in hand, the counts are those of the tables.
-/

namespace UnixV6pp

open Tally

/-- The accounts. -/
structure Books (n : ℕ) where
  count : Slot → ℤ
  fCount : FileSlot → ℤ
  /-- The inode to which the open file has a reference. -/
  owner : FileSlot → Option Slot
  xIptr : TextSlot → Option Slot
  xCount : TextSlot → ℤ
  /-- The inode to which the text segment has a reference. -/
  textOwner : TextSlot → Option Slot
  fds : Fin n → Fd → Option FileSlot
  closing : Fin n → Option FileSlot
  cwd : Fin n → Option Slot
  textUse : Fin n → Option TextSlot
  refs : Fin n → Slot → ℕ
  tearing : Fin n → Option (Slot × Source)
  fresh : Fin n → FileSlot → Bool
  root : Slot
  lost : Slot → ℕ

namespace Books

variable {n : ℕ} (b : Books n) (p : Fin n) (i : Slot)

/-- How often the file is named. -/
def names (f : FileSlot) : ℤ := ∑ q, tally (b.fds q) f + tally b.closing f

/-- How many references to the inode there are. -/
def holders : ℤ :=
  ∑ q, (b.refs q i : ℤ) + tally b.cwd i + tally b.owner i + tally b.textOwner i +
    tally (fun _ : Unit => some b.root) i + b.lost i

/-- What is known of the reference that `p` is giving back, the last one to the inode. -/
def TornOk : Source → Prop
  | .hand => True
  | .file f => b.owner f = none ∧ b.fCount f = 1 ∧ b.closing p = some f
  | .text t => b.xIptr t = some i ∧ b.textOwner t = none ∧ b.xCount t = 0
  | .cdir new => b.cwd p = none ∧
      ∀ j, new = some j → (if j = i then 2 else 1) ≤ b.refs p j

/-- The accounts are right. -/
structure Ok : Prop where
  names : ∀ f, b.fCount f = b.names f
  holders : ∀ i, b.count i = b.holders i
  users : ∀ t, b.xIptr t ≠ none → b.xCount t = tally b.textUse t
  used : ∀ p t, b.textUse p = some t → b.xIptr t ≠ none
  /-- A file that has a reference is in use. -/
  owned : ∀ f, b.owner f ≠ none → b.fCount f ≠ 0
  /-- A file in use has one, but for a moment. -/
  unowned : ∀ f, b.fCount f ≠ 0 → b.owner f = none →
    ∃ p, b.fresh p f = true ∨ ∃ i, b.tearing p = some (i, .file f)
  fresh : ∀ p f, b.fresh p f = true →
    b.owner f = none ∧ b.fCount f = 1 ∧ ∃ fd, b.fds p fd = some f
  textOwned : ∀ t, b.textOwner t ≠ b.xIptr t → ∃ p i, b.tearing p = some (i, .text t)
  torn : ∀ p i src, b.tearing p = some (i, src) → 0 < b.refs p i ∧ b.TornOk p i src
  /-- A text segment is given up by one process at a time. -/
  tornText : ∀ p q i j t, b.tearing p = some (i, .text t) → b.tearing q = some (j, .text t) →
    p = q

/-! ### Changes -/

def setRefs (k : ℕ) : Books n :=
  { b with refs := Function.update b.refs p (Function.update (b.refs p) i k) }

/-- One more reference in hand. -/
def take : Books n := b.setRefs p i (b.refs p i + 1)

/-- One less. -/
def give : Books n := b.setRefs p i (b.refs p i - 1)

def setFd (fd : Fd) (v : Option FileSlot) : Books n :=
  { b with fds := Function.update b.fds p (Function.update (b.fds p) fd v) }

def setFresh (f : FileSlot) (v : Bool) : Books n :=
  { b with fresh := Function.update b.fresh p (Function.update (b.fresh p) f v) }

def setCount (k : ℤ) : Books n := { b with count := Function.update b.count i k }

def setFCount (f : FileSlot) (k : ℤ) : Books n :=
  { b with fCount := Function.update b.fCount f k }

def setOwner (f : FileSlot) (o : Option Slot) : Books n :=
  { b with owner := Function.update b.owner f o }

def setTearing (v : Option (Slot × Source)) : Books n :=
  { b with tearing := Function.update b.tearing p v }

def setClosing (v : Option FileSlot) : Books n :=
  { b with closing := Function.update b.closing p v }

def setCwd (v : Option Slot) : Books n := { b with cwd := Function.update b.cwd p v }

def setTextUse (v : Option TextSlot) : Books n :=
  { b with textUse := Function.update b.textUse p v }

def setText (t : TextSlot) (x o : Option Slot) (k : ℤ) : Books n :=
  { b with
    xIptr := Function.update b.xIptr t x
    textOwner := Function.update b.textOwner t o
    xCount := Function.update b.xCount t k }

/-- All that concerns one process. -/
def setProc (fds : Fd → Option FileSlot) (closing : Option FileSlot) (cwd : Option Slot)
    (textUse : Option TextSlot) (refs : Slot → ℕ) (tearing : Option (Slot × Source))
    (fresh : FileSlot → Bool) : Books n :=
  { b with
    fds := Function.update b.fds p fds
    closing := Function.update b.closing p closing
    cwd := Function.update b.cwd p cwd
    textUse := Function.update b.textUse p textUse
    refs := Function.update b.refs p refs
    tearing := Function.update b.tearing p tearing
    fresh := Function.update b.fresh p fresh }

/-- A reference is made. -/
def hold : Books n := (b.take p i).setCount i (b.count i + 1)

def forget : Books n :=
  { b.give p i with lost := Function.update b.lost i (b.lost i + 1) }

/-- The reference of another owner goes to `p`, to be given back. -/
def takeFrom : Source → Books n
  | .hand => b
  | .file f => (b.take p i).setOwner f none
  | .text t => (b.take p i).setText t (b.xIptr t) none (b.xCount t)
  | .cdir _ => (b.take p i).setCwd p none

def seize (src : Source) : Books n := (b.takeFrom p i src).setTearing p (some (i, src))

/-- What becomes of the owner whose reference was given back. -/
def settle : Source → Books n
  | .hand => b
  | .file f => (b.setFCount f (b.fCount f - 1)).setClosing p none
  | .text t => b.setText t none (b.textOwner t) (b.xCount t)
  | .cdir none => b
  | .cdir (some j) => (b.give p j).setCwd p (some j)

/-- A reference is given back. -/
def discharge (src : Source) : Books n :=
  ((((b.setCount i (b.count i - 1)).give p i).setTearing p none).settle p src)

/-- A reference that is not the last one is given back. -/
def putBack (src : Source) : Books n :=
  let b := b.setCount i (b.count i - 1)
  match src with
  | .hand => b.give p i
  | .file f => ((b.setFCount f (b.fCount f - 1)).setOwner f none).setClosing p none
  | .text t => b.setText t none none (b.xCount t)
  | .cdir none => b.setCwd p none
  | .cdir (some j) => (b.setCwd p (some j)).give p j

def fAlloc (fd : Fd) (f : FileSlot) : Books n :=
  ((b.setFCount f (b.fCount f + 1)).setFd p fd (some f)).setFresh p f true

def openFile (f : FileSlot) : Books n :=
  ((b.setOwner f (some i)).setFresh p f false).give p i

def undoOpen (fd : Fd) (f : FileSlot) : Books n :=
  (((b.setFd p fd none).setFCount f (b.fCount f - 1)).setOwner f none).take p i

def undoPipe (fd : Fd) (f : FileSlot) : Books n :=
  ((b.setFCount f 0).setFd p fd none).setFresh p f false

def clearFd (fd : Fd) (f : FileSlot) : Books n := (b.setFd p fd none).setClosing p (some f)

def decFile (f : FileSlot) : Books n := (b.setFCount f (b.fCount f - 1)).setClosing p none

def dup (fd : Fd) (f : FileSlot) : Books n :=
  (b.setFd p fd (some f)).setFCount f (b.fCount f + 1)

def clone (child : Fin n) : Books n :=
  { b with
    count := fun i => b.count i + if b.cwd p = some i then 1 else 0
    fCount := fun f => b.fCount f + tally (b.fds p) f
    xCount := fun t => b.xCount t + if b.textUse p = some t then 1 else 0
    fds := Function.update b.fds child (b.fds p)
    cwd := Function.update b.cwd child (b.cwd p)
    textUse := Function.update b.textUse child (b.textUse p) }

def shareText (t : TextSlot) : Books n :=
  (b.setText t (b.xIptr t) (b.textOwner t) (b.xCount t + 1)).setTextUse p (some t)

def newText (t : TextSlot) : Books n :=
  ((b.setCount i (b.count i + 1)).setText t (some i) (some i) 1).setTextUse p (some t)

def decText (t : TextSlot) : Books n :=
  (b.setText t (b.xIptr t) (b.textOwner t) (b.xCount t - 1)).setTextUse p none

/-! ### Sums -/

section Sums

variable {b : Books n} {p q : Fin n} {i j : Slot} {f : FileSlot} {t : TextSlot} {k : ℕ}
variable {fd fd' : Fd} {v : Option FileSlot} {o x : Option Slot} {m : ℤ}

@[simp] theorem holders_setRefs :
    (b.setRefs p i k).holders j = b.holders j + if j = i then (k : ℤ) - b.refs p i else 0 := by
  have hsum : ∑ q, ((b.setRefs p i k).refs q j : ℤ) =
      ∑ q, (b.refs q j : ℤ) - b.refs p j + (Function.update (b.refs p) i k j : ℕ) :=
    sum_update b.refs p _ fun r => (r j : ℤ)
  unfold holders
  rw [hsum]
  by_cases hj : j = i
  · subst hj
    rw [Function.update_self, if_pos rfl]
    simp only [setRefs]
    ring
  · rw [Function.update_of_ne hj, if_neg hj]
    simp only [setRefs]
    ring

theorem holders_take : (b.take p i).holders j = b.holders j + if j = i then 1 else 0 := by
  unfold take
  rw [holders_setRefs]
  split <;> omega

theorem holders_give (h : 0 < b.refs p i) :
    (b.give p i).holders j = b.holders j - if j = i then 1 else 0 := by
  unfold give
  rw [holders_setRefs]
  split <;> omega

theorem holders_setOwner : (b.setOwner f o).holders j =
    b.holders j - (if b.owner f = some j then 1 else 0) + (if o = some j then 1 else 0) := by
  simp only [holders, setOwner, tally_update]
  ring

theorem holders_setCwd : (b.setCwd p o).holders j =
    b.holders j - (if b.cwd p = some j then 1 else 0) + (if o = some j then 1 else 0) := by
  simp only [holders, setCwd, tally_update]
  ring

theorem holders_setText : (b.setText t x o m).holders j =
    b.holders j - (if b.textOwner t = some j then 1 else 0) + (if o = some j then 1 else 0) := by
  simp only [holders, setText, tally_update]
  ring

theorem names_setFd : (b.setFd p fd v).names f =
    b.names f - (if b.fds p fd = some f then 1 else 0) + (if v = some f then 1 else 0) := by
  have hsum : ∑ q, tally ((b.setFd p fd v).fds q) f = ∑ q, tally (b.fds q) f -
      tally (b.fds p) f + tally (Function.update (b.fds p) fd v) f :=
    sum_update b.fds p _ fun g => tally g f
  unfold names
  rw [hsum, tally_update]
  simp only [setFd]
  ring

theorem names_setClosing : (b.setClosing p v).names f =
    b.names f - (if b.closing p = some f then 1 else 0) + (if v = some f then 1 else 0) := by
  simp only [names, setClosing, tally_update]
  ring

/-! ### Two holders -/

theorem tally_fds_le (q : Fin n) (f : FileSlot) : tally (b.fds q) f ≤ ∑ q, tally (b.fds q) f := by
  have hnonneg : ∀ q ∈ Finset.univ, 0 ≤ tally (b.fds q) f := fun q _ => tally_nonneg _ _
  exact Finset.single_le_sum hnonneg (Finset.mem_univ q)

theorem names_nonneg : 0 ≤ b.names f := by
  apply add_nonneg _ (tally_nonneg _ _)
  exact Finset.sum_nonneg fun q _ => tally_nonneg _ _

theorem one_le_names (h : b.fds p fd = some f) : 1 ≤ b.names f := by
  have hle := tally_fds_le (b := b) p f
  have hone := one_le_tally h
  have hclosing := tally_nonneg b.closing f
  unfold names
  omega

theorem two_le_names_closing (hp : b.fds p fd = some f) (hq : b.closing q = some f) :
    2 ≤ b.names f := by
  have hle := tally_fds_le (b := b) p f
  have hone := one_le_tally hp
  have hclosing := one_le_tally hq
  unfold names
  omega

theorem two_le_names_of_closing (hpq : p ≠ q) (hp : b.closing p = some f)
    (hq : b.closing q = some f) : 2 ≤ b.names f := by
  have hsum : 0 ≤ ∑ q, tally (b.fds q) f := Finset.sum_nonneg fun q _ => tally_nonneg _ _
  have hclosing := two_le_tally hpq hp hq
  unfold names
  omega

theorem two_le_names (hpq : p ≠ q) (hp : b.fds p fd = some f) (hq : b.fds q fd' = some f) :
    2 ≤ b.names f := by
  have hone : 1 ≤ (b.setFd p fd none).names f := by
    refine @one_le_names _ _ q _ fd' ?_
    simp only [setFd]
    rw [Function.update_of_ne (Ne.symm hpq)]
    exact hq
  rw [names_setFd, if_pos hp] at hone
  simp only [reduceCtorEq, if_false] at hone
  omega

end Sums

end Books
end UnixV6pp
