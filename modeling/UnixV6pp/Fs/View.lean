import UnixV6pp.Fs.Actions

/-!
# What a process knows of itself

While a process sleeps in a system call the others leave its descriptors, its directory,
its text segment and what it has in hand alone.  That is its view of itself, the only
thing it can rely on when it goes on.

* `Process.view` — the view.
* `view_exec_of_ne` — **nobody changes the view of another process.**
-/

namespace UnixV6pp

open Inode

/-- The view; outside of a call only what is in hand is in it. -/
def Process.view (q : Process) : Process :=
  if q.whereabouts = .kernel then
    { q with pWchan := none, awaiting := none, uError := false, ids := fun _ => (0, 0) }
  else
    { q with
      whereabouts := .user
      pWchan := none
      awaiting := none
      uOfiles := fun _ => none
      uCdir := 0
      pTextp := none
      uError := false
      ids := fun _ => (0, 0) }

@[simp] theorem Process.view_loc (q : Process) : q.view.loc = q.loc := by
  unfold view
  split <;> rfl

theorem Process.view_whereabouts (q : Process) :
    q.view.whereabouts = .kernel ↔ q.whereabouts = .kernel := by
  unfold view
  split
  · exact Iff.rfl
  · next h =>
    dsimp only
    simp [h]

theorem Process.live_of_view {q : Process} (h : q.view.whereabouts = .kernel) :
    q.live = true := by
  rw [view_whereabouts] at h
  unfold live
  rw [h]
  rfl

theorem Process.view_of_kernel {q : Process} (h : q.view.whereabouts = .kernel) :
    q.view.uOfiles = q.uOfiles ∧ q.view.uCdir = q.uCdir ∧ q.view.pTextp = q.pTextp := by
  rw [view_whereabouts] at h
  unfold view
  rw [if_pos h]
  exact ⟨rfl, rfl, rfl⟩

/-- Sleeping is no part of the view. -/
theorem Process.view_awake (q : Process) : q.awake.view = q.view := rfl

theorem Process.view_of_awake {a b : Process} (h : a.awake = b.awake) : a.view = b.view := by
  rw [← view_awake a, h, view_awake]

namespace Kernel

variable {n : ℕ} {s : Kernel n} {p q : Fin n} {i : Slot} {src : Source}

/-- The view of a process. -/
def view (p : Fin n) (s : Kernel n) : Process := (s.proc p).view

theorem view_prele : (s.prele i).view q = s.view q := Process.view_of_awake (awake_prele q)

theorem view_wakeUpAll (chan : Chan) : (s.wakeUpAll chan).view q = s.view q :=
  Process.view_of_awake (awake_wakeUpAll chan q)

theorem view_setProc_of_ne {e : Process} (hq : q ≠ p) : (s.setProc p e).view q = s.view q :=
  congrArg Process.view (proc_setProc_of_ne hq)

/-- A process that is not in use sees nothing of the tables, before it is cloned and after. -/
theorem view_clone_of_ne {child : Fin n} : (s.clone p child).view q = s.view q := by
  by_cases hchild : (s.proc child).live = true
  · unfold clone
    rw [hchild]
    rfl
  rw [Bool.not_eq_true] at hchild
  by_cases hqc : q = child
  · subst hqc
    have hgone : (s.proc q).whereabouts ≠ .kernel := by
      intro hk
      unfold Process.live at hchild
      rw [hk] at hchild
      cases hchild
    have hloc := (Valid.cloned_child (p := p) hchild).2.2
    have huser : ((s.clone p q).proc q).whereabouts = .user := by
      unfold clone
      rw [hchild]
      simp only [Bool.false_eq_true, if_false]
      rw [proc_setProc_self]
    unfold view Process.view
    rw [if_neg hgone, if_neg (by rw [huser]; decide)]
    rw [show ((s.clone p q).proc q).loc = (s.proc q).loc from hloc]
  · exact congrArg Process.view (Valid.cloned_proc hchild hqc)

/-- **Nobody changes the view of another process.** -/
theorem view_exec_of_ne (a : Action n) (hq : q ≠ p) : (s.exec p a).view q = s.view q := by
  cases a with
  | enter => exact view_setProc_of_ne hq
  | leave =>
    change (s.leave p).view q = _
    unfold leave
    split
    · exact view_setProc_of_ne hq
    · rfl
  | setError => exact view_setProc_of_ne hq
  | want i chan => exact view_setProc_of_ne hq
  | lock i => exact view_setProc_of_ne hq
  | prele i => exact (view_setProc_of_ne hq).trans view_prele
  | clearLock i => exact view_setProc_of_ne hq
  | hold i => exact (view_setProc_of_ne hq).trans (view_setProc_of_ne hq)
  | load i dev number => exact (view_setProc_of_ne hq).trans (view_setProc_of_ne hq)
  | iCopy i => rfl
  | lockLast i src =>
    exact congrArg Process.view ((proc_setProc_of_ne hq).trans (proc_takeFrom_of_ne hq))
  | iTrunc i => rfl
  | clearMode i => rfl
  | writeDisk i => rfl
  | release i last src =>
    change (s.release p i last src).view q = _
    unfold release
    dsimp only
    refine (congrArg Process.view ((proc_settle_of_ne hq).trans (proc_letGo_of_ne hq))).trans ?_
    refine (view_setProc_of_ne hq).trans (view_prele.trans ?_)
    change (if last = true then s.invalidate i else s).view q = _
    split
    · exact view_prele
    · rfl
  | syncLock i => rfl
  | syncPrele i => exact view_prele
  | borrow i v => exact view_setProc_of_ne hq
  | unborrow => exact view_setProc_of_ne hq
  | forget i => exact view_setProc_of_ne hq
  | clean i => rfl
  | setFields i flag mode nlink => rfl
  | fAlloc fd f => exact (view_setProc_of_ne hq).trans (view_setProc_of_ne hq)
  | openFile f flag i => exact (view_setProc_of_ne hq).trans (view_setProc_of_ne hq)
  | undoOpen fd f => exact (view_setProc_of_ne hq).trans (view_setProc_of_ne hq)
  | undoPipe fd f => exact (view_setProc_of_ne hq).trans (view_setProc_of_ne hq)
  | pipe fr fw i =>
    refine (view_setProc_of_ne hq).trans ((view_setProc_of_ne hq).trans ?_)
    exact (view_setProc_of_ne hq).trans (view_setProc_of_ne hq)
  | clearFd fd f => exact (view_setProc_of_ne hq).trans (view_setProc_of_ne hq)
  | takeFd fd f => exact (view_setProc_of_ne hq).trans (view_setProc_of_ne hq)
  | dropFd fd => exact view_setProc_of_ne hq
  | closePipe i => exact (view_wakeUpAll _).trans (view_wakeUpAll _)
  | decFile f => exact view_setProc_of_ne hq
  | dup fd f => exact view_setProc_of_ne hq
  | clone child => exact view_clone_of_ne
  | exit => exact view_setProc_of_ne hq
  | shareText t => exact view_setProc_of_ne hq
  | newText t i => exact view_setProc_of_ne hq
  | decText t => exact view_setProc_of_ne hq
  | dropText => exact view_setProc_of_ne hq
  | exeSleep => exact view_setProc_of_ne hq
  | exeInc => rfl
  | exeDec wake =>
    change (s.exeDec wake).view q = _
    unfold exeDec
    change (if wake = true then s.wakeUpAll .exeCnt else s).view q = _
    split
    · exact view_wakeUpAll _
    · rfl

end Kernel

/-! ### The view after an action -/

namespace Local

variable (l : Local) (i : Slot)

def take : Local := { l with refs := Function.update l.refs i (l.refs i + 1) }

def give : Local := { l with refs := Function.update l.refs i (l.refs i - 1) }

def setInside (v : Bool) : Local := { l with inside := Function.update l.inside i v }

end Local

namespace Process

variable (g : Process) (i : Slot)

def setLoc (l : Local) : Process := { g with loc := l }

/-- The reference that is given back is in hand. -/
def seize (src : Source) : Process :=
  match src with
  | .hand => g.setLoc { g.loc with tearing := some (i, src) }
  | .cdir _ => g.setLoc { g.loc.take i with cdirTaken := true, tearing := some (i, src) }
  | _ => g.setLoc { g.loc.take i with tearing := some (i, src) }

def settle : Source → Process
  | .file _ => g.setLoc { g.loc with closingFile := none }
  | .cdir (some j) =>
    { g with uCdir := j, loc := ({ g.loc with cdirTaken := false } : Local).give j }
  | _ => g

/-- It is given back. -/
def discharge (src : Source) : Process :=
  (g.setLoc { (g.loc.setInside i false).give i with tearing := none }).settle src

/-- A reference is given back, whether it is the last one or not. -/
def putBack (src : Source) : Process :=
  match src with
  | .hand => g.setLoc ((g.loc.setInside i false).give i)
  | .cdir none => g.setLoc { g.loc.setInside i false with cdirTaken := true }
  | _ => (g.setLoc (g.loc.setInside i false)).settle src

theorem discharge_seize {src : Source} (h : g.loc.tearing = none) :
    (g.seize i src).discharge i src = g.putBack i src := by
  have hrefs : Function.update (g.loc.refs) i (g.loc.refs i + 1 - 1) = g.loc.refs := by
    rw [Nat.add_sub_cancel, Function.update_eq_self]
  cases src with
  | cdir new =>
    cases new <;>
    · simp only [seize, discharge, settle, putBack, setLoc, Local.take, Local.give,
        Local.setInside, Function.update_self, Function.update_idem, hrefs, h]
  | _ =>
    simp only [seize, discharge, settle, putBack, setLoc, Local.take, Local.give,
      Local.setInside, Function.update_self, Function.update_idem, hrefs, h]

end Process

namespace Kernel

variable {n : ℕ} {s : Kernel n} {p : Fin n} {i : Slot} {src : Source} {f : FileSlot} {fd : Fd}

theorem view_setProc {e : Process} : (s.setProc p e).view p = e.view :=
  congrArg Process.view proc_setProc_self

theorem view_setLoc {l : Local} : (s.setLoc p l).view p = (s.view p).setLoc l := by
  unfold setLoc
  rw [view_setProc]
  unfold view Process.view Process.setLoc
  dsimp only
  split <;> rfl

theorem loc_view : (s.view p).loc = s.loc p := Process.view_loc _

theorem view_give : (s.give p i).view p = (s.view p).setLoc ((s.loc p).give i) := view_setLoc

theorem view_setInside (v : Bool) :
    (s.setInside p i v).view p = (s.view p).setLoc ((s.loc p).setInside i v) :=
  view_setLoc

theorem view_take : (s.take p i).view p = (s.view p).setLoc ((s.loc p).take i) := by
  unfold take
  rw [view_setProc]
  unfold view Process.view Process.setLoc Local.take
  dsimp only
  split <;> rfl

theorem loc_take : (s.take p i).loc p = (s.loc p).take i := by
  rw [← loc_view, view_take]
  rfl

theorem view_hold : (s.hold p i).view p =
    (s.view p).setLoc (((s.loc p).take i).setInside i true) := by
  unfold hold
  dsimp only
  rw [view_setInside, loc_take, view_take]
  rfl

theorem view_load (dev number : ℤ) : (s.load p i dev number).view p =
    (s.view p).setLoc (((s.loc p).take i).setInside i true) := by
  unfold load
  dsimp only
  rw [view_setInside, loc_take, view_take]
  rfl

theorem setLoc_setLoc (g : Process) (l l' : Local) : (g.setLoc l).setLoc l' = g.setLoc l' := rfl

theorem view_lockLast : (s.lockLast p i src).view p = (s.view p).seize i src := by
  have hloc : (s.view p).loc = s.loc p := loc_view
  unfold lockLast setTearing
  rw [view_setLoc]
  generalize hs' : s.setFlag i ((s.inode i).iFlag ||| ILOCK) = s'
  have hview : s'.view p = s.view p := by rw [← hs']; rfl
  have hloc' : s'.loc p = s.loc p := by rw [← hs']; rfl
  cases src with
  | hand =>
    change (s'.view p).setLoc { s'.loc p with tearing := _ } = _
    rw [hview, hloc', ← hloc]
    rfl
  | file f =>
    unfold takeFrom
    dsimp only
    rw [loc_take, view_take, setLoc_setLoc]
    change (s'.view p).setLoc { (s'.loc p).take i with tearing := _ } = _
    rw [hview, hloc', ← hloc]
    rfl
  | text t =>
    unfold takeFrom
    dsimp only
    rw [loc_take, view_take, setLoc_setLoc]
    change (s'.view p).setLoc { (s'.loc p).take i with tearing := _ } = _
    rw [hview, hloc', ← hloc]
    rfl
  | cdir new =>
    unfold takeFrom
    dsimp only
    rw [loc_take, view_take, setLoc_setLoc, loc_setLoc, view_setLoc, setLoc_setLoc, hview, hloc',
      ← hloc]
    rfl

theorem view_settle (hk : (s.view p).whereabouts = .kernel) :
    (s.settle p src).view p = (s.view p).settle src := by
  have hloc : (s.view p).loc = s.loc p := loc_view
  cases src with
  | file f =>
    unfold settle setClosing
    dsimp only
    rw [view_setLoc]
    change (s.view p).setLoc { s.loc p with closingFile := none } = _
    rw [← hloc]
    rfl
  | cdir new =>
    cases new with
    | none => rfl
    | some j =>
      have hkernel := (Process.view_whereabouts _).1 hk
      unfold settle give
      dsimp only
      rw [view_setLoc, loc_setProc_self, view_setProc]
      unfold view Process.view Process.settle
      dsimp only
      rw [if_pos hkernel, if_pos hkernel]
      rfl
  | _ => rfl

theorem view_dropCount : (s.dropCount i).view p = s.view p := view_prele

theorem view_release_last (hk : (s.view p).whereabouts = .kernel) :
    (s.release p i true src).view p = (s.view p).discharge i src := by
  have hdrop : ((s.invalidate i).dropCount i).view p = s.view p := view_dropCount.trans view_prele
  have hloc : ((s.invalidate i).dropCount i).loc p = (s.view p).loc := by rw [← hdrop, loc_view]
  have hletGo : ((((s.invalidate i).dropCount i).setInside p i false).letGo p i true src).view p =
      (s.view p).setLoc { ((s.view p).loc.setInside i false).give i with tearing := none } := by
    unfold letGo
    rw [if_pos rfl]
    unfold setTearing give setInside
    rw [view_setLoc, view_setLoc, view_setLoc, loc_setLoc, loc_setLoc, setLoc_setLoc,
      setLoc_setLoc, hdrop, hloc]
    rfl
  unfold release
  dsimp only
  rw [if_pos rfl, view_settle, hletGo]
  · rfl
  · rw [hletGo]
    exact hk

theorem view_release (hk : (s.view p).whereabouts = .kernel) :
    (s.release p i false src).view p = (s.view p).putBack i src := by
  have hdrop : ((s.dropCount i).setInside p i false).view p =
      (s.view p).setLoc ((s.view p).loc.setInside i false) := by
    rw [view_setInside, view_dropCount, ← loc_view, view_dropCount]
  have hloc : ((s.dropCount i).setInside p i false).loc p = (s.view p).loc.setInside i false := by
    rw [← loc_view, hdrop]
    rfl
  unfold release letGo
  dsimp only
  rw [if_neg Bool.false_ne_true, if_neg Bool.false_ne_true]
  generalize (s.dropCount i).setInside p i false = s' at *
  have hk' : (s'.view p).whereabouts = .kernel := by
    rw [hdrop]
    exact hk
  cases src with
  | hand =>
    change (s'.give p i).view p = _
    rw [view_give, hdrop, hloc]
    rfl
  | cdir new =>
    cases new with
    | none =>
      change (s'.setLoc p _).view p = _
      rw [view_setLoc, hdrop, hloc]
      rfl
    | some j =>
      change (s'.settle p _).view p = _
      rw [view_settle hk', hdrop]
      rfl
  | _ =>
    change (s'.settle p _).view p = _
    rw [view_settle hk', hdrop]
    rfl

end Kernel
end UnixV6pp
