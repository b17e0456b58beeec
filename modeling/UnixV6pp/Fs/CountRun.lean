import UnixV6pp.Fs.Programs
import UnixV6pp.Fs.LockRun

/-!
# The counts after every run

Between two system calls a process has nothing in hand, so the reference counts of open
files and inodes are the numbers of what is in the tables: descriptors, open files,
current directories and text segments.

`Pipe` does not count but writes down that the new inode has two references, which is wrong
when it had one before.

* `CountCall` — the calls.
* `count_run` — **all counts are right when nobody is in a call**, if `Pipe` gets an inode
  that nobody else has.
* `count_pipe` — and if not, a count is too small.
-/

namespace UnixV6pp

open Tally Threads Kernel

namespace SystemCalls

variable {n : ℕ}

/-- The calls that change counts. -/
inductive CountCall
  | open
  | dup (fd : Fd)
  | pipe
  | fork
  | close (fd : Fd)
  | chDir
  | exec
  | exit

def CountCall.code (p : Fin n) : CountCall → KCode n Unit
  | .open => openCall p
  | .dup fd => SystemCalls.dup p fd
  | .pipe => SystemCalls.pipe p
  | .fork => SystemCalls.fork p
  | .close fd => SystemCalls.close p fd
  | .chDir => SystemCalls.chDir p
  | .exec => execCall p
  | .exit => exitCall p

/-- The processes that do so. -/
def countMachine (n : ℕ) : Machine (Fin n) (Kernel n) (Action n) CountCall :=
  machine (fun _ _ _ => true) CountCall.code

/-- `Pipe` gets an inode to which nobody else has a reference. -/
def PipeApart (_ : Fin n) (s : Kernel n) : Action n → Prop
  | .pipe _ _ i => (s.inode i).iCount = 1
  | _ => True

/-- The counts are the numbers of what is in the tables. -/
structure Counted (s : Kernel n) : Prop where
  /-- `f_count` is the number of descriptors of live processes. -/
  files : ∀ f, (s.file f).fCount = (Finset.univ.filter fun x : Fin n × Fd =>
    (s.proc x.1).live = true ∧ (s.proc x.1).uOfiles x.2 = some f).card
  /-- `i_count` is the number of open files, current directories and text segments, and one for
  the root. -/
  inodes : ∀ i, (s.inode i).iCount =
    (Finset.univ.filter fun f => 0 < (s.file f).fCount ∧ (s.file f).fInode = i).card +
    (Finset.univ.filter fun p => (s.proc p).live = true ∧ (s.proc p).uCdir = i).card +
    (Finset.univ.filter fun t => (s.text t).xIptr = some i).card +
    (if s.rootDirInode = i then 1 else 0)

/-- Nothing in hand between two calls. -/
structure Resting (l : Local) : Prop extends l.Steady where
  refs : ∀ i, l.refs i = 0

theorem Level.resting {g g' : Process} (h : Level g g') (hg : Resting g.loc) :
    Resting g'.loc := by
  obtain ⟨J, hJ⟩ := h
  rw [hJ]
  exact ⟨hg.toSteady.update _ _, hg.refs⟩

section

variable {s : Kernel n}

theorem fds_of_resting {p : Fin n} (h : Resting (s.loc p)) (fd : Fd) (f : FileSlot) :
    s.books.fds p fd = some f ↔ (s.proc p).live = true ∧ (s.proc p).uOfiles fd = some f := by
  change (s.proc p).fds fd = some f ↔ _
  have hclosing : (s.proc p).loc.closingFd = none := h.settled.1
  unfold Process.fds
  rw [hclosing]
  cases (s.proc p).live with
  | true => simp
  | false => simp

theorem cwd_of_resting {p : Fin n} (h : Resting (s.loc p)) (i : Slot) :
    s.books.cwd p = some i ↔ (s.proc p).live = true ∧ (s.proc p).uCdir = i := by
  change (s.proc p).cwd = some i ↔ _
  have htaken : (s.proc p).loc.cdirTaken = false := h.settled.2.1
  unfold Process.cwd
  rw [htaken]
  cases (s.proc p).live with
  | true => simp
  | false => simp

/-- A file is in use when it owns a reference. -/
theorem owner_iff (hs : s.Valid) (howner : ∀ f, s.books.owner f ≠ none ↔ s.books.fCount f ≠ 0)
    (f : FileSlot) (i : Slot) :
    s.books.owner f = some i ↔ 0 < (s.file f).fCount ∧ (s.file f).fInode = i := by
  have hnonneg : 0 ≤ (s.file f).fCount := by
    change 0 ≤ s.books.fCount f
    rw [hs.books.names]
    exact Books.names_nonneg
  have hiff : (s.file f).owner ≠ none ↔ (s.file f).fCount ≠ 0 := howner f
  change (s.file f).owner = some i ↔ _
  unfold File.owner at hiff ⊢
  cases howns : (s.file f).owns with
  | true =>
    rw [howns] at hiff
    have hne : (s.file f).fCount ≠ 0 := hiff.1 (Option.some_ne_none _)
    have hpos : 0 < (s.file f).fCount := lt_of_le_of_ne hnonneg hne.symm
    rw [if_pos rfl, Option.some_inj]
    exact ⟨fun h => ⟨hpos, h⟩, fun h => h.2⟩
  | false =>
    rw [howns] at hiff
    have hzero : (s.file f).fCount = 0 := by
      by_contra hne
      exact hiff.2 hne rfl
    simp [hzero]

/-- When all processes are between two calls the counts are right. -/
theorem counted_of_resting (hs : s.Valid) (hlost : ∀ i, s.lost i = 0)
    (hrest : ∀ p, Resting (s.loc p)) : Counted s := by
  obtain ⟨hfiles, hinodes, howner⟩ := hs.books.quiet (fun p => (hrest p).refs)
    (fun p => (hrest p).closingFile) (fun p => (hrest p).fresh) fun p => (hrest p).tearing
  refine ⟨fun f => (hfiles f).trans ?_, fun i => (hinodes i).trans ?_⟩
  · unfold tally
    rw [← Fintype.sum_prod_type' fun p fd => if s.books.fds p fd = some f then (1 : ℤ) else 0,
      Finset.sum_boole]
    congr 2
    exact Finset.filter_congr fun x _ => fds_of_resting (hrest x.1) x.2 f
  · have hcwd : tally s.books.cwd i = (Finset.univ.filter fun p =>
        (s.proc p).live = true ∧ (s.proc p).uCdir = i).card := by
      rw [tally_eq_card]
      congr 2
      exact Finset.filter_congr fun p _ => cwd_of_resting (hrest p) i
    have hown : tally s.books.owner i = (Finset.univ.filter fun f =>
        0 < (s.file f).fCount ∧ (s.file f).fInode = i).card := by
      rw [tally_eq_card]
      congr 2
      exact Finset.filter_congr fun f _ => owner_iff hs howner f i
    have htext : tally s.books.xIptr i = (Finset.univ.filter fun t =>
        (s.text t).xIptr = some i).card := tally_eq_card _ _
    have hroot : tally (fun _ : Unit => some s.books.root) i =
        if s.rootDirInode = i then 1 else 0 := by
      unfold tally
      rw [Fintype.sum_unique]
      exact if_congr Option.some_inj rfl rfl
    have hlost' : s.books.lost i = 0 := hlost i
    rw [hcwd, hown, htext, hroot, hlost']
    omega

end

theorem rules_lost : Rules False (n := n) (fun s => ∀ i, s.lost i = 0) PipeApart where
  step s p a _ h _ hplain _ i := by
    rw [lost_exec]
    · exact h i
    · rintro j rfl
      exact hplain
  locked h := h.elim

theorem countCall_spec {g : Process} {p : Fin n} (hg : Steady g) (t : CountCall) :
    KSpec (fun s => ∀ i, s.lost i = 0) PipeApart p g (CountCall.code p t)
      fun _ g' => Level g g' := by
  have hR := @rules_lost n
  cases t with
  | «open» => exact openCall_spec hR hg
  | dup fd => exact dup_spec hR hg fd
  | pipe =>
    apply pipe_spec hR _ _ hg
    · exact fun s p fr fw i h => h
    · intro s p fr fw i _ h _ j
      rw [lost_exec fun _ h => by cases h]
      exact h j
  | fork => exact fork_spec hR hg
  | close fd => exact close_spec hR hg fd
  | chDir => exact chDir_spec hR id hg
  | exec => exact exec_spec hR hg
  | exit => exact exit_spec hR id hg

/-- **All counts are right when nobody is in a call**, in every run in which `Pipe` gets an inode
that nobody else has. -/
theorem count_run {disk : ℤ → ℤ → DiskInode} {alive : Fin n → Bool}
    {c : Config (Fin n) (Kernel n) (Action n)}
    (hrun : (countMachine n).Runs PipeApart (start disk alive) c) (hidle : Idle c) :
    Counted c.state := by
  have hempty : Resting Local.empty := ⟨Local.steady_empty, fun _ => rfl⟩
  have hrule := valid_run rules_lost (fun _ => rfl) hempty ?_ hrun
  · exact counted_of_resting hrule.1.1 hrule.1.2 fun p => hrule.2 p (hidle p)
  · rintro p t l - hl g hg rfl
    exact (countCall_spec ⟨hg, hl.toSteady⟩ t).mono fun _ g' h => h.resting hl

/-- `PipeApart`, as a test. -/
def pipeApart (_ : Fin n) (s : Kernel n) : Action n → Bool
  | .pipe _ _ i => (s.inode i).iCount = 1
  | _ => true

theorem pipeApart_of_test (p : Fin n) (s : Kernel n) (a : Action n) (h : pipeApart p s a = true) :
    PipeApart p s a := by
  cases a with
  | pipe fr fw i =>
    have hcount : (s.inode i).iCount = 1 := of_decide_eq_true h
    exact hcount
  | _ => trivial

theorem idle_of_returned {c : Config (Fin n) (Kernel n) (Action n)}
    (h : ∀ p, returned (c.code p) = true) : Idle c :=
  fun p => eq_ret_of_returned (h p)

/-- A process opens inode 5, makes a pipe of inode 6, becomes two, closes a descriptor and goes
to another directory. -/
def countRun : List (Turn (Fin 2) CountCall) :=
  [.call 0 .open openFirst, .call 0 .pipe [0, 0, 0, 1, 6, 0, 0, 1], .call 0 .fork [1, 0],
    .call 1 (.close 0) [], .call 1 .chDir [0, 1, 1, 0, 1, 0, 5, 0, 1], .call 0 .exit [0]]

theorem count_run_fork : ∃ c, (countMachine 2).Runs PipeApart
    (start (fun _ number => ⟨if number = 6 then 0 else IALLOC, 1⟩) fun p => p = 0) c ∧
      (c.state.file 1).fCount = 1 ∧ (c.state.proc 1).uCdir = 1 ∧ Counted c.state := by
  obtain ⟨c, hrun, hret, hcount, hcdir⟩ := (countMachine 2).exists_run_of_play pipeApart
    pipeApart_of_test countRun
    (fun c => (∀ p, returned (c.code p) = true) ∧ (c.state.file 1).fCount = 1 ∧
      (c.state.proc 1).uCdir = 1)
    (c := start (fun _ number => ⟨if number = 6 then 0 else IALLOC, 1⟩) fun p => p = 0)
    (by decide +kernel)
  exact ⟨c, hrun, hcount, hcdir, count_run hrun (idle_of_returned hret)⟩

/-- The first `Open` of inode 5 cannot read the block of the inode, and `IPut` then frees the
inode because of the fields of its entry; the second one opens it, and `Pipe` gets it too. -/
def pipeTwice : List (Turn (Fin 1) CountCall) :=
  [.call 0 .open [3, 0, 1, 1, 0, 1, 0, 5, 0, 0, 0, 0, 1, 0, 0], .call 0 .open openFirst,
    .call 0 .pipe [0, 0, 0, 1, 5, 0]]

/-- Otherwise an inode can have more references than `i_count` says. -/
theorem count_pipe : ∃ c, (countMachine 1).Runs (fun _ _ _ => True)
    (start (fun _ _ => ⟨IALLOC, 1⟩) fun _ => true) c ∧ Idle c ∧ ¬Counted c.state := by
  obtain ⟨c, hrun, hret, hcount⟩ := (countMachine 1).exists_run_of_play (fun _ _ _ => true)
    (fun _ _ _ _ => trivial) pipeTwice
    (fun c => (∀ p, returned (c.code p) = true) ∧ (c.state.inode 1).iCount ≠
      (Finset.univ.filter fun f => 0 < (c.state.file f).fCount ∧ (c.state.file f).fInode = 1).card +
      (Finset.univ.filter fun p => (c.state.proc p).live = true ∧ (c.state.proc p).uCdir = 1).card +
      (Finset.univ.filter fun t => (c.state.text t).xIptr = some 1).card +
      (if c.state.rootDirInode = 1 then 1 else 0))
    (c := start (fun _ _ => ⟨IALLOC, 1⟩) fun _ => true) (by decide +kernel)
  exact ⟨c, hrun, idle_of_returned hret, fun h => hcount (h.inodes 1)⟩

end SystemCalls
end UnixV6pp
