import UnixV6pp.Fs.BalanceFiles

/-!
# The accounts of the kernel

Every state of the kernel has its accounts, and every action changes them as one of the
changes of accounts does, or not at all.  A descriptor that `Exit` is closing, a current
directory or a text segment already left do not count any more.

* `Kernel.books` — the accounts of a state.
* `books_setInode`, `books_setProc` and others — how the small changes show in them.
-/

namespace UnixV6pp

open Tally

/-- The descriptors that count. -/
def Process.fds (q : Process) (fd : Fd) : Option FileSlot :=
  if q.live = false ∨ q.loc.closingFd = some fd then none else q.uOfiles fd

theorem Process.fds_of_live {q : Process} (h : q.live = true) (fd : Fd) :
    q.fds fd = if q.loc.closingFd = some fd then none else q.uOfiles fd := by
  simp [Process.fds, h]

def Process.cwd (q : Process) : Option Slot :=
  if q.live = false ∨ q.loc.cdirTaken = true then none else some q.uCdir

def Process.textUse (q : Process) : Option TextSlot :=
  if q.live = false ∨ q.loc.dropping = true then none else q.pTextp

def File.owner (e : File) : Option Slot := if e.owns then some e.fInode else none

def Text.owner (e : Text) : Option Slot := if e.owns then e.xIptr else none

/-- A process as it is when it does not sleep. -/
def Process.awake (q : Process) : Process := { q with pWchan := none, awaiting := none }

namespace Kernel

variable {n : ℕ}

/-- The accounts. -/
def books (s : Kernel n) : Books n where
  count i := (s.inode i).iCount
  fCount f := (s.file f).fCount
  owner f := (s.file f).owner
  xIptr t := (s.text t).xIptr
  xCount t := (s.text t).xCount
  textOwner t := (s.text t).owner
  fds p := (s.proc p).fds
  closing p := (s.loc p).closingFile
  cwd p := (s.proc p).cwd
  textUse p := (s.proc p).textUse
  refs p := (s.loc p).refs
  tearing p := (s.loc p).tearing
  fresh p := (s.loc p).fresh
  root := s.rootDirInode
  lost := s.lost

variable {s : Kernel n} {p : Fin n} {i : Slot} {f : FileSlot} {t : TextSlot} {fd : Fd}

/-! ### Small changes -/

theorem books_setInode (e : InodeEntry) :
    (s.setInode i e).books = s.books.setCount i e.iCount := by
  have hcount : (fun j => (Function.update s.inode i e j).iCount) =
      Function.update (fun j => (s.inode j).iCount) i e.iCount :=
    funext fun j => Function.apply_update (fun _ (e : InodeEntry) => e.iCount) s.inode i e j
  simp only [books, setInode, Books.setCount, hcount]

theorem setCount_self (b : Books n) : b.setCount i (b.count i) = b := by
  simp only [Books.setCount, Function.update_eq_self]

/-- The other fields of an inode do not matter. -/
theorem books_setInode_same {e : InodeEntry} (he : e.iCount = (s.inode i).iCount) :
    (s.setInode i e).books = s.books := by
  rw [books_setInode, he]
  exact setCount_self s.books

@[simp] theorem books_setFlag (flag : UInt32) : (s.setFlag i flag).books = s.books :=
  books_setInode_same rfl

theorem books_setCount (k : ℤ) : (s.setCount i k).books = s.books.setCount i k :=
  books_setInode _

theorem books_setFile (e : File) :
    (s.setFile f e).books = (s.books.setFCount f e.fCount).setOwner f e.owner := by
  have hcount : (fun g => (Function.update s.file f e g).fCount) =
      Function.update (fun g => (s.file g).fCount) f e.fCount :=
    funext fun g => Function.apply_update (fun _ (e : File) => e.fCount) s.file f e g
  have howner : (fun g => (Function.update s.file f e g).owner) =
      Function.update (fun g => (s.file g).owner) f e.owner :=
    funext fun g => Function.apply_update (fun _ (e : File) => e.owner) s.file f e g
  simp only [books, setFile, Books.setFCount, Books.setOwner, hcount, howner]

theorem books_setText (e : Text) :
    (s.setText t e).books = s.books.setText t e.xIptr e.owner e.xCount := by
  have hx : (fun u => (Function.update s.text t e u).xIptr) =
      Function.update (fun u => (s.text u).xIptr) t e.xIptr :=
    funext fun u => Function.apply_update (fun _ (e : Text) => e.xIptr) s.text t e u
  have hcount : (fun u => (Function.update s.text t e u).xCount) =
      Function.update (fun u => (s.text u).xCount) t e.xCount :=
    funext fun u => Function.apply_update (fun _ (e : Text) => e.xCount) s.text t e u
  have howner : (fun u => (Function.update s.text t e u).owner) =
      Function.update (fun u => (s.text u).owner) t e.owner :=
    funext fun u => Function.apply_update (fun _ (e : Text) => e.owner) s.text t e u
  simp only [books, setText, Books.setText, hx, hcount, howner]

theorem books_setProc (e : Process) : (s.setProc p e).books =
    s.books.setProc p e.fds e.loc.closingFile e.cwd e.textUse e.loc.refs e.loc.tearing
      e.loc.fresh := by
  have hof : ∀ {β : Type} (g : Process → β), (fun q => g (Function.update s.proc p e q)) =
      Function.update (fun q => g (s.proc q)) p (g e) :=
    fun g => funext fun q => Function.apply_update (fun _ => g) s.proc p e q
  simp only [books, setProc, Books.setProc, loc, hof Process.fds, hof Process.cwd,
    hof Process.textUse, hof fun e => e.loc.closingFile, hof fun e => e.loc.refs,
    hof fun e => e.loc.tearing, hof fun e => e.loc.fresh]

/-- Nothing that counts is changed in the process. -/
theorem setProc_self (b : Books n) : b.setProc p (b.fds p) (b.closing p) (b.cwd p) (b.textUse p)
    (b.refs p) (b.tearing p) (b.fresh p) = b := by
  simp only [Books.setProc, Function.update_eq_self]

theorem books_setProc_same {e : Process} (hfds : e.fds = (s.proc p).fds)
    (hcwd : e.cwd = (s.proc p).cwd) (htext : e.textUse = (s.proc p).textUse)
    (hclosing : e.loc.closingFile = (s.loc p).closingFile) (hrefs : e.loc.refs = (s.loc p).refs)
    (htearing : e.loc.tearing = (s.loc p).tearing) (hfresh : e.loc.fresh = (s.loc p).fresh) :
    (s.setProc p e).books = s.books := by
  rw [books_setProc, hfds, hcwd, htext, hclosing, hrefs, htearing, hfresh]
  exact setProc_self s.books

@[simp] theorem books_setInside (v : Bool) : (s.setInside p i v).books = s.books := by
  unfold setInside setLoc
  rw [books_setProc]
  exact setProc_self s.books

section SetProc

variable (b : Books n)

theorem setProc_refs (r : Slot → ℕ) : b.setProc p (b.fds p) (b.closing p) (b.cwd p)
    (b.textUse p) r (b.tearing p) (b.fresh p) =
      { b with refs := Function.update b.refs p r } := by
  simp only [Books.setProc, Function.update_eq_self]

theorem setProc_tearing (v : Option (Slot × Source)) : b.setProc p (b.fds p) (b.closing p)
    (b.cwd p) (b.textUse p) (b.refs p) v (b.fresh p) = b.setTearing p v := by
  simp only [Books.setProc, Books.setTearing, Function.update_eq_self]

theorem setProc_closing (v : Option FileSlot) : b.setProc p (b.fds p) v (b.cwd p) (b.textUse p)
    (b.refs p) (b.tearing p) (b.fresh p) = b.setClosing p v := by
  simp only [Books.setProc, Books.setClosing, Function.update_eq_self]

theorem setProc_fresh (v : FileSlot → Bool) : b.setProc p (b.fds p) (b.closing p) (b.cwd p)
    (b.textUse p) (b.refs p) (b.tearing p) v =
      { b with fresh := Function.update b.fresh p v } := by
  simp only [Books.setProc, Function.update_eq_self]

theorem setProc_fds (v : Fd → Option FileSlot) : b.setProc p v (b.closing p) (b.cwd p)
    (b.textUse p) (b.refs p) (b.tearing p) (b.fresh p) =
      { b with fds := Function.update b.fds p v } := by
  simp only [Books.setProc, Function.update_eq_self]

theorem setProc_cwd (v : Option Slot) : b.setProc p (b.fds p) (b.closing p) v (b.textUse p)
    (b.refs p) (b.tearing p) (b.fresh p) = b.setCwd p v := by
  simp only [Books.setProc, Books.setCwd, Function.update_eq_self]

theorem setProc_textUse (v : Option TextSlot) : b.setProc p (b.fds p) (b.closing p) (b.cwd p) v
    (b.refs p) (b.tearing p) (b.fresh p) = b.setTextUse p v := by
  simp only [Books.setProc, Books.setTextUse, Function.update_eq_self]

end SetProc

@[simp] theorem books_take : (s.take p i).books = s.books.take p i := by
  unfold take
  rw [books_setProc]
  exact setProc_refs s.books _

@[simp] theorem books_give : (s.give p i).books = s.books.give p i := by
  unfold give setLoc
  rw [books_setProc]
  exact setProc_refs s.books _

@[simp] theorem books_setTearing (v : Option (Slot × Source)) :
    (s.setTearing p v).books = s.books.setTearing p v := by
  unfold setTearing setLoc
  rw [books_setProc]
  exact setProc_tearing s.books v

@[simp] theorem books_setClosing (v : Option FileSlot) :
    (s.setClosing p v).books = s.books.setClosing p v := by
  unfold setClosing setLoc
  rw [books_setProc]
  exact setProc_closing s.books v

@[simp] theorem books_setFresh (v : Bool) :
    (s.setFresh p f v).books = s.books.setFresh p f v := by
  unfold setFresh setLoc
  rw [books_setProc]
  exact setProc_fresh s.books _

/-- A descriptor that counts is changed. -/
theorem books_setFd (v : Option FileSlot) (hlive : (s.proc p).live = true)
    (hfd : (s.loc p).closingFd ≠ some fd) :
    (s.setFd p fd v).books = s.books.setFd p fd v := by
  have hfds : Process.fds { s.proc p with uOfiles := Function.update (s.proc p).uOfiles fd v } =
      Function.update (s.proc p).fds fd v := by
    funext fd'
    have hlive' : Process.live { s.proc p with
        uOfiles := Function.update (s.proc p).uOfiles fd v } = true := hlive
    rw [Process.fds_of_live hlive']
    dsimp only
    by_cases he : fd' = fd
    · subst he
      rw [Function.update_self, Function.update_self, if_neg hfd]
    · rw [Function.update_of_ne he, Function.update_of_ne he, Process.fds_of_live hlive]
  unfold setFd
  rw [books_setProc, hfds]
  exact setProc_fds s.books _

/-! ### Sleeping and waking -/

@[simp] theorem books_wakeUpAll (chan : Chan) : (s.wakeUpAll chan).books = s.books := by
  have hproc : ∀ {β : Type} (g : Process → β),
      (∀ q : Process, g { q with pWchan := none, awaiting := none } = g q) →
      (fun q => g ((s.wakeUpAll chan).proc q)) = fun q => g (s.proc q) := by
    intro β g hg
    funext q
    unfold wakeUpAll
    dsimp only
    split
    · exact hg _
    · rfl
  have hfds := hproc Process.fds fun _ => rfl
  have hcwd := hproc Process.cwd fun _ => rfl
  have htext := hproc Process.textUse fun _ => rfl
  have hloc := hproc Process.loc fun _ => rfl
  have hloc' : ∀ q, (s.wakeUpAll chan).loc q = s.loc q := congrFun hloc
  unfold books
  rw [hfds, hcwd, htext]
  simp only [hloc']
  rfl

@[simp] theorem books_sleepOn (chan : Chan) (w : Option Slot) :
    (s.sleepOn p chan w).books = s.books :=
  books_setProc_same rfl rfl rfl rfl rfl rfl rfl

@[simp] theorem books_prele : (s.prele i).books = s.books := by
  unfold prele
  dsimp only
  split
  · rw [books_wakeUpAll, books_setFlag, books_setFlag]
  · exact books_setFlag _

theorem awake_wakeUpAll (chan : Chan) (q : Fin n) :
    ((s.wakeUpAll chan).proc q).awake = (s.proc q).awake := by
  unfold wakeUpAll
  dsimp only
  split <;> rfl

theorem awake_prele (q : Fin n) : ((s.prele i).proc q).awake = (s.proc q).awake := by
  unfold prele
  dsimp only
  split
  · exact awake_wakeUpAll _ _
  · rfl

@[simp] theorem live_prele (q : Fin n) : ((s.prele i).proc q).live = (s.proc q).live := by
  have h := congrArg Process.live (awake_prele (s := s) (i := i) q)
  exact h

@[simp] theorem live_setLoc (l : Local) (q : Fin n) :
    ((s.setLoc p l).proc q).live = (s.proc q).live := by
  unfold setLoc setProc
  by_cases hq : q = p
  · subst hq
    dsimp only
    rw [Function.update_self]
    rfl
  · dsimp only
    rw [Function.update_of_ne hq]

@[simp] theorem live_setInside (v : Bool) (q : Fin n) :
    ((s.setInside p i v).proc q).live = (s.proc q).live :=
  live_setLoc _ q

@[simp] theorem live_give (q : Fin n) : ((s.give p i).proc q).live = (s.proc q).live :=
  live_setLoc _ q

@[simp] theorem live_setTearing (v : Option (Slot × Source)) (q : Fin n) :
    ((s.setTearing p v).proc q).live = (s.proc q).live :=
  live_setLoc _ q

@[simp] theorem live_setCount (k : ℤ) (q : Fin n) :
    ((s.setCount i k).proc q).live = (s.proc q).live :=
  rfl

/-! ### References to inodes -/

theorem books_hold : (s.hold p i).books = s.books.hold p i := by
  unfold hold
  dsimp only
  rw [books_setInside, books_take, books_setFlag, books_setCount]
  rfl

theorem books_load (dev number : ℤ) : (s.load p i dev number).books = s.books.hold p i := by
  unfold load
  dsimp only
  rw [books_setInside, books_take, books_setInode]
  rfl

theorem setFCount_self (b : Books n) : b.setFCount f (b.fCount f) = b := by
  simp only [Books.setFCount, Function.update_eq_self]

theorem setOwner_self (b : Books n) : b.setOwner f (b.owner f) = b := by
  simp only [Books.setOwner, Function.update_eq_self]

theorem setText_xCount (b : Books n) (k : ℤ) : b.setText t (b.xIptr t) (b.textOwner t) k =
    { b with xCount := Function.update b.xCount t k } := by
  simp only [Books.setText, Function.update_eq_self]

/-- The file keeps its count. -/
theorem books_setFile_owner {e : File} (he : e.fCount = (s.file f).fCount) :
    (s.setFile f e).books = s.books.setOwner f e.owner := by
  rw [books_setFile, he]
  exact congrArg (fun b : Books n => b.setOwner f e.owner) (setFCount_self s.books)

/-- The file keeps its reference, or has none before and after. -/
theorem books_setFile_count {e : File} (he : e.owner = (s.file f).owner) :
    (s.setFile f e).books = s.books.setFCount f e.fCount := by
  rw [books_setFile, he]
  exact setOwner_self (s.books.setFCount f e.fCount)

theorem books_setLoc_cdirTaken {v : Bool} :
    (s.setLoc p { s.loc p with cdirTaken := v }).books =
      s.books.setCwd p (if (s.proc p).live = false ∨ v = true then none
        else some (s.proc p).uCdir) := by
  unfold setLoc
  rw [books_setProc]
  exact setProc_cwd s.books _

theorem books_takeFrom (src : Source) :
    (s.takeFrom p i src).books = s.books.takeFrom p i src := by
  cases src with
  | hand => rfl
  | file f =>
    unfold takeFrom
    dsimp only
    rw [books_take, books_setFile_owner]
    · rfl
    · rfl
  | text t =>
    unfold takeFrom
    dsimp only
    rw [books_take, books_setText]
    rfl
  | cdir new =>
    unfold takeFrom
    dsimp only
    rw [books_take, books_setLoc_cdirTaken, if_pos (.inr rfl)]
    rfl

theorem books_lockLast (src : Source) : (s.lockLast p i src).books = s.books.seize p i src := by
  unfold lockLast
  rw [books_setTearing, books_takeFrom, books_setFlag]
  rfl

/-- The process goes to another directory. -/
theorem books_setCdir (hlive : (s.proc p).live = true) (j : Slot) :
    (s.settle p (.cdir (some j))).books = (s.books.setCwd p (some j)).give p j := by
  have hcwd : Process.cwd { s.proc p with
      uCdir := j, loc := { s.loc p with cdirTaken := false } } = some j := by
    have hlive' : Process.live { s.proc p with
      uCdir := j, loc := { s.loc p with cdirTaken := false } } = true := hlive
    unfold Process.cwd
    rw [hlive']
    simp
  unfold settle
  dsimp only
  rw [books_give, books_setProc, hcwd]
  exact congrArg (fun b : Books n => b.give p j) (setProc_cwd s.books (some j))

theorem books_settle {src : Source} (hlive : (s.proc p).live = true)
    (howner : ∀ f, src = .file f → (s.file f).owner = none)
    (htext : ∀ t, src = .text t → (s.text t).owner = none) :
    (s.settle p src).books = s.books.settle p src := by
  cases src with
  | hand => rfl
  | file f =>
    unfold settle
    dsimp only
    rw [books_setClosing, books_setFile_count]
    · rfl
    · exact (howner f rfl).symm
  | text t =>
    unfold settle
    dsimp only
    rw [books_setText]
    change s.books.setText t none none _ = s.books.setText t none (s.text t).owner _
    rw [htext t rfl]
    rfl
  | cdir new =>
    cases new with
    | none => rfl
    | some j => exact books_setCdir hlive j

@[simp] theorem books_invalidate : (s.invalidate i).books = s.books := by
  unfold invalidate
  dsimp only
  rw [books_setInode_same, books_setFlag, books_prele]
  rfl

@[simp] theorem live_invalidate (q : Fin n) :
    ((s.invalidate i).proc q).live = (s.proc q).live :=
  live_prele q

@[simp] theorem iCount_prele (j : Slot) :
    ((s.prele i).inode j).iCount = (s.inode j).iCount :=
  congrFun (congrArg Books.count books_prele) j

@[simp] theorem iCount_invalidate (j : Slot) :
    ((s.invalidate i).inode j).iCount = (s.inode j).iCount :=
  congrFun (congrArg Books.count books_invalidate) j

@[simp] theorem books_dropCount :
    (s.dropCount i).books = s.books.setCount i (s.books.count i - 1) := by
  unfold dropCount
  rw [books_prele, books_setCount]
  rfl

@[simp] theorem live_dropCount (q : Fin n) : ((s.dropCount i).proc q).live = (s.proc q).live :=
  live_prele q

/-- The end of `IPut` for the last reference. -/
theorem books_release_last {src : Source} (hlive : (s.proc p).live = true)
    (htorn : s.books.TornOk p i src) :
    (s.release p i true src).books = s.books.discharge p i src := by
  have hdrop : ((((s.invalidate i).dropCount i).setInside p i false).letGo p i true src).books =
      ((s.books.setCount i (s.books.count i - 1)).give p i).setTearing p none := by
    unfold letGo
    rw [if_pos rfl, books_setTearing, books_give, books_setInside, books_dropCount,
      books_invalidate]
  unfold release
  dsimp only
  rw [if_pos rfl, books_settle, hdrop]
  · rfl
  · unfold letGo
    rw [if_pos rfl, live_setTearing, live_give, live_setInside, live_dropCount, live_invalidate,
      hlive]
  · rintro f rfl
    exact (congrFun (congrArg Books.owner hdrop) f).trans htorn.1
  · rintro t rfl
    exact (congrFun (congrArg Books.textOwner hdrop) t).trans htorn.2.1

/-- The end of `IPut` when other references are left. -/
theorem books_release {src : Source} (hlive : (s.proc p).live = true) :
    (s.release p i false src).books = s.books.putBack p i src := by
  have hdrop : ((s.dropCount i).setInside p i false).books =
      s.books.setCount i (s.books.count i - 1) := by
    rw [books_setInside, books_dropCount]
  unfold release
  dsimp only
  rw [if_neg Bool.false_ne_true]
  generalize hs' : (s.dropCount i).setInside p i false = s' at *
  have hlive' : (s'.proc p).live = true := by
    rw [← hs', live_setInside, live_dropCount, hlive]
  unfold letGo Books.putBack
  rw [if_neg Bool.false_ne_true]
  dsimp only
  rw [← hdrop]
  cases src with
  | hand => exact books_give
  | file f =>
    unfold settle
    dsimp only
    rw [books_setClosing, books_setFile]
    rfl
  | text t =>
    unfold settle
    dsimp only
    rw [books_setText]
    rfl
  | cdir new =>
    cases new with
    | none =>
      unfold settle
      dsimp only
      rw [books_setLoc_cdirTaken, if_pos (.inr rfl)]
    | some j => exact books_setCdir hlive' j

end Kernel

namespace Books

variable {n : ℕ} {b : Books n} {p : Fin n} {i : Slot}

/-- A reference that is not the last one need not go through the hands of the process. -/
theorem putBack_eq {src : Source} (h : b.tearing p = none) :
    (b.seize p i src).discharge p i src = b.putBack p i src := by
  have htearing : Function.update b.tearing p none = b.tearing := by
    rw [← h, Function.update_eq_self]
  have hrefs : Function.update (b.refs p) i (b.refs p i + 1 - 1) = b.refs p := by
    rw [Nat.add_sub_cancel, Function.update_eq_self]
  cases src with
  | cdir new =>
    cases new <;>
    · simp only [seize, takeFrom, discharge, settle, putBack, take, give, setRefs, setCount,
        setTearing, setCwd, Function.update_self, Function.update_idem, hrefs, htearing,
        Function.update_eq_self]
  | _ =>
    simp only [seize, takeFrom, discharge, settle, putBack, take, give, setRefs, setCount,
      setTearing, setOwner, setClosing, setFCount, setText, Function.update_self,
      Function.update_idem, hrefs, htearing, Function.update_eq_self]

end Books

namespace Kernel

variable {n : ℕ} {s : Kernel n} {p : Fin n} {i : Slot} {f : FileSlot} {t : TextSlot} {fd : Fd}

theorem books_forget : (s.forget p i).books = s.books.forget p i := by
  unfold forget
  rw [books_give]
  rfl

/-! ### Open files -/

theorem books_fAlloc (hlive : (s.proc p).live = true) (hfd : (s.loc p).closingFd ≠ some fd) :
    (s.fAlloc p fd f).books = s.books.fAlloc p fd f := by
  unfold fAlloc
  dsimp only
  rw [books_setFresh, books_setFd, books_setFile_count]
  · rfl
  · rfl
  · exact hlive
  · exact hfd

theorem books_openFile (flag : UInt32) :
    (s.openFile p i f flag).books = s.books.openFile p i f := by
  unfold openFile
  dsimp only
  rw [books_give, books_setFresh, books_setFile_owner]
  · rfl
  · rfl

theorem books_undoOpen (hlive : (s.proc p).live = true) (hfd : (s.loc p).closingFd ≠ some fd) :
    (s.undoOpen p fd f).books = s.books.undoOpen p (s.file f).fInode fd f := by
  unfold undoOpen
  dsimp only
  rw [books_take, books_setFile, books_setFd]
  · rfl
  · exact hlive
  · exact hfd

theorem books_undoPipe (hlive : (s.proc p).live = true) (hfd : (s.loc p).closingFd ≠ some fd) :
    (s.undoPipe p fd f).books = s.books.undoPipe p fd f := by
  unfold undoPipe
  dsimp only
  rw [books_setFresh, books_setFd, books_setFile_count]
  · rfl
  · rfl
  · exact hlive
  · exact hfd

/-- Both ends of a new pipe are opened, with one reference more. -/
theorem books_pipe {fr fw : FileSlot} (hcount : (s.inode i).iCount = 1)
    (hrefs : 0 < (s.loc p).refs i) : (s.pipe p i fr fw).books =
      ((s.books.openFile p i fr).hold p i).openFile p i fw := by
  have hr : s.books.refs p i - 1 + 1 = s.books.refs p i := Nat.sub_add_cancel hrefs
  have hcount' : s.books.count i + 1 = 2 := congrArg (· + 1) hcount
  unfold pipe
  dsimp only
  rw [books_setInside, books_give, books_setFresh, books_setFresh, books_setInode,
    books_setFile_owner, books_setFile_owner]
  · simp only [Books.openFile, Books.hold, Books.take, Books.give, Books.setRefs, Books.setCount,
      Books.setFresh, Books.setOwner, Function.update_self, Function.update_idem, hcount', hr]
    rfl
  · rfl
  · rfl

theorem books_clearFd (hlive : (s.proc p).live = true) (hfd : (s.loc p).closingFd ≠ some fd) :
    (s.clearFd p fd f).books = s.books.clearFd p fd f := by
  unfold clearFd
  rw [books_setClosing, books_setFd none hlive hfd]
  rfl

/-- For the accounts the descriptor is cleared when `Exit` begins to close it. -/
theorem books_takeFd (hlive : (s.proc p).live = true) (hfd : (s.loc p).closingFd = none) :
    (s.takeFd p fd f).books = s.books.clearFd p fd f := by
  have hfds : Process.fds { s.proc p with loc := { s.loc p with closingFd := some fd } } =
      Function.update (s.proc p).fds fd none := by
    have hlive' : Process.live { s.proc p with
      loc := { s.loc p with closingFd := some fd } } = true := hlive
    funext fd'
    rw [Process.fds_of_live hlive']
    dsimp only
    by_cases he : fd' = fd
    · subst he
      rw [Function.update_self, if_pos rfl]
    · rw [Function.update_of_ne he, Process.fds_of_live hlive, hfd, if_neg, if_neg]
      · exact fun h => by cases h
      · rintro ⟨⟩
        exact he rfl
  unfold takeFd
  rw [books_setClosing]
  unfold setLoc
  rw [books_setProc, hfds]
  exact congrArg (fun b : Books n => b.setClosing p (some f)) (setProc_fds s.books _)

theorem books_dropFd (hlive : (s.proc p).live = true) (hfd : (s.loc p).closingFd = some fd) :
    (s.dropFd p fd).books = s.books := by
  have hfds : ∀ e : Process, e.live = true → e.loc.closingFd = none →
      e.uOfiles = Function.update (s.proc p).uOfiles fd none → e.fds = (s.proc p).fds := by
    intro e he hclosing hof
    funext fd'
    rw [Process.fds_of_live he, Process.fds_of_live hlive, hclosing, hfd, hof]
    by_cases hfd' : fd' = fd
    · subst hfd'
      simp
    · rw [Function.update_of_ne hfd', if_neg (by simp), if_neg]
      rintro ⟨⟩
      exact hfd' rfl
  exact books_setProc_same (hfds _ hlive rfl rfl) rfl rfl rfl rfl rfl rfl

theorem books_decFile : (s.decFile p f).books = s.books.decFile p f := by
  unfold decFile
  rw [books_setClosing, books_setFile_count]
  · rfl
  · rfl

theorem books_dup (hlive : (s.proc p).live = true) (hfd : (s.loc p).closingFd ≠ some fd) :
    (s.dup p fd f).books = s.books.dup p fd f := by
  unfold dup
  rw [books_setFile_count, books_setFd (some f) hlive hfd]
  · rfl
  · rfl

theorem fdCount_eq (q : Process) (f : FileSlot) :
    (q.fdCount f : ℤ) = tally q.uOfiles f :=
  (tally_eq_card _ f).symm

theorem books_countFiles (q : Process) : (s.countFiles q).books =
    { s.books with fCount := fun f => s.books.fCount f + tally q.uOfiles f } := by
  unfold countFiles
  simp only [books, fdCount_eq]
  rfl

theorem books_countText (q : Process) : (s.countText q).books =
    { s.books with xCount := fun t =>
        s.books.xCount t + if q.pTextp = some t then 1 else 0 } := by
  unfold countText
  split
  · next t ht =>
    have hcount : (fun u => s.books.xCount u + if q.pTextp = some u then 1 else 0) =
        Function.update s.books.xCount t (s.books.xCount t + 1) := by
      funext u
      rw [ht]
      by_cases hu : u = t
      · subst hu
        rw [Function.update_self, if_pos rfl]
      · rw [Function.update_of_ne hu, if_neg, add_zero]
        rintro ⟨⟩
        exact hu rfl
    rw [books_setText, hcount]
    exact setText_xCount s.books _
  · next ht =>
    rw [ht]
    simp

theorem proc_countText (q : Process) : ((s.countFiles q).countText q).proc = s.proc := by
  unfold countText
  split <;> rfl

/-- A descriptor, a current directory and a text segment count when the process is in use and is
not giving them up. -/
theorem counts_of_live {q : Process} (hlive : q.live = true) (hfd : q.loc.closingFd = none)
    (htaken : q.loc.cdirTaken = false) (hdropping : q.loc.dropping = false) :
    q.fds = q.uOfiles ∧ q.cwd = some q.uCdir ∧ q.textUse = q.pTextp := by
  refine ⟨?_, ?_, ?_⟩
  · funext fd
    rw [Process.fds_of_live hlive, hfd, if_neg (by simp)]
  · unfold Process.cwd
    rw [hlive, htaken]
    simp
  · unfold Process.textUse
    rw [hlive, hdropping]
    simp

/-- Nothing is in hand that the accounts would not show. -/
def Settled (l : Local) : Prop :=
  l.closingFd = none ∧ l.cdirTaken = false ∧ l.dropping = false ∧ l.borrowed = none

theorem books_clone {child : Fin n} (hchild : (s.proc child).live = false)
    (hlive : (s.proc p).live = true) (hset : Settled (s.loc p)) (hset' : Settled (s.loc child)) :
    (s.clone p child).books = s.books.clone p child := by
  obtain ⟨hfds, hcwd, htext⟩ := counts_of_live hlive hset.1 hset.2.1 hset.2.2.1
  have hcount : Function.update s.books.count (s.proc p).uCdir
      (s.books.count (s.proc p).uCdir + 1) =
        fun i => s.books.count i + if s.books.cwd p = some i then 1 else 0 := by
    funext i
    rw [show s.books.cwd p = _ from hcwd]
    by_cases hi : i = (s.proc p).uCdir
    · subst hi
      rw [Function.update_self, if_pos rfl]
    · rw [Function.update_of_ne hi, if_neg, add_zero]
      rintro ⟨⟩
      exact hi rfl
  have hloc : ∀ s₁ : Kernel n, s₁.books = { s.books with
      fCount := fun f => s.books.fCount f + tally (s.proc p).uOfiles f
      xCount := fun t => s.books.xCount t + if (s.proc p).pTextp = some t then 1 else 0 } →
      ∀ e : Process, e.uOfiles = (s.proc p).uOfiles → e.uCdir = (s.proc p).uCdir →
        e.pTextp = (s.proc p).pTextp → e.live = true → e.loc = s.loc child →
        ((s₁.setCount (s.proc p).uCdir ((s₁.inode (s.proc p).uCdir).iCount + 1)).setProc child
          e).books = s.books.clone p child := by
    intro s₁ hs₁ e hof hcdir htextp he hloc
    obtain ⟨hfds', hcwd', htext'⟩ := counts_of_live (q := e) he (hloc ▸ hset'.1)
      (hloc ▸ hset'.2.1) (hloc ▸ hset'.2.2.1)
    have hc : (s₁.inode (s.proc p).uCdir).iCount = s.books.count (s.proc p).uCdir :=
      congrFun (congrArg Books.count hs₁) _
    rw [books_setProc, books_setCount, hs₁, hfds', hcwd', htext', hloc, hof, hcdir, htextp, hc,
      ← hfds, ← hcwd, ← htext]
    change Books.setProc (Books.setCount _ _ _) child (s.books.fds p) (s.books.closing child)
      (s.books.cwd p) (s.books.textUse p) (s.books.refs child) (s.books.tearing child)
      (s.books.fresh child) = _
    simp only [Books.setProc, Books.setCount, Function.update_eq_self]
    rw [hcount]
    rfl
  unfold clone
  rw [hchild]
  simp only [Bool.false_eq_true, if_false]
  apply hloc
  · rw [books_countText, books_countFiles]
  · rfl
  · rfl
  · rfl
  · rfl
  · change (((s.countFiles (s.proc p)).countText (s.proc p)).proc child).loc = _
    rw [proc_countText]

/-- A process that has given up everything is gone. -/
theorem books_exit (hfds : ∀ fd, (s.proc p).uOfiles fd = none)
    (htaken : (s.loc p).cdirTaken = true) (htext : (s.proc p).pTextp = none) :
    (s.exit p).books = s.books := by
  have hall : ∀ e : Process, e.live = false → e.fds = (s.proc p).fds ∧
      e.cwd = (s.proc p).cwd ∧ e.textUse = (s.proc p).textUse := by
    intro e he
    refine ⟨?_, ?_, ?_⟩
    · funext fd
      unfold Process.fds
      rw [he, hfds, ite_self, if_pos (.inl rfl)]
    · unfold Process.cwd
      rw [he, htaken, if_pos (.inl rfl), if_pos (.inr rfl)]
    · unfold Process.textUse
      rw [he, htext, ite_self, if_pos (.inl rfl)]
  unfold exit
  apply books_setProc_same
  · exact (hall _ rfl).1
  · exact (hall _ rfl).2.1
  · exact (hall _ rfl).2.2
  · rfl
  · rfl
  · rfl
  · rfl

/-! ### Text segments -/

/-- A text segment that counts is entered in the process. -/
theorem books_setTextp {v : Option TextSlot} (hlive : (s.proc p).live = true)
    (hdropping : (s.loc p).dropping = false) :
    (s.setProc p { s.proc p with pTextp := v }).books = s.books.setTextUse p v := by
  have huse : Process.textUse { s.proc p with pTextp := v } = v := by
    have hlive' : Process.live { s.proc p with pTextp := v } = true := hlive
    unfold Process.textUse
    rw [hlive']
    simp [hdropping]
  rw [books_setProc, huse]
  exact setProc_textUse s.books v

theorem books_shareText (hlive : (s.proc p).live = true)
    (hdropping : (s.loc p).dropping = false) :
    (s.shareText p t).books = s.books.shareText p t := by
  unfold shareText
  dsimp only
  rw [books_setTextp, books_setText]
  · rfl
  · exact hlive
  · exact hdropping

theorem books_newText (hlive : (s.proc p).live = true) (hdropping : (s.loc p).dropping = false) :
    (s.newText p i t).books = s.books.newText p i t := by
  unfold newText
  dsimp only
  rw [books_setTextp, books_setText, books_setCount]
  · rfl
  · exact hlive
  · exact hdropping

theorem books_decText : (s.decText p t).books = s.books.decText p t := by
  have huse : Process.textUse { s.proc p with loc := { s.loc p with dropping := true } } =
      none := by
    unfold Process.textUse
    exact if_pos (.inr rfl)
  unfold decText
  dsimp only
  unfold setLoc
  rw [books_setProc, books_setText]
  refine Eq.trans ?_ (setProc_textUse _ none)
  congr 1

theorem books_dropText (hdropping : (s.loc p).dropping = true) :
    (s.dropText p).books = s.books := by
  have huse : Process.textUse { s.proc p with
      pTextp := none, loc := { s.loc p with dropping := false } } = (s.proc p).textUse := by
    unfold Process.textUse
    rw [ite_self, if_pos (.inr hdropping)]
  exact books_setProc_same rfl rfl huse rfl rfl rfl rfl

/-! ### Calls -/

/-- A process in use stays so. -/
theorem books_setProc_live {e : Process} (hlive : (s.proc p).live = true) (he : e.live = true)
    (hof : e.uOfiles = (s.proc p).uOfiles) (hcdir : e.uCdir = (s.proc p).uCdir)
    (htext : e.pTextp = (s.proc p).pTextp) (hloc : e.loc = s.loc p) :
    (s.setProc p e).books = s.books := by
  apply books_setProc_same
  · unfold Process.fds
    rw [he, hlive, hof, hloc]
  · unfold Process.cwd
    rw [he, hlive, hcdir, hloc]
  · unfold Process.textUse
    rw [he, hlive, htext, hloc]
  all_goals rw [hloc]

theorem books_enter (hlive : (s.proc p).live = true) : (s.enter p).books = s.books :=
  books_setProc_live hlive rfl rfl rfl rfl rfl

theorem books_leave : (s.leave p).books = s.books := by
  unfold leave
  split
  · next hk =>
    have hlive : (s.proc p).live = true := by
      unfold Process.live
      rw [hk]
      rfl
    exact books_setProc_live hlive rfl rfl rfl rfl rfl
  · rfl

end Kernel
end UnixV6pp
