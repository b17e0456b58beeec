import UnixV6pp.Fs.InodeLock

/-!
# Alone in an inode

The calls on files, interleaved wherever the kernel sleeps: two processes are never inside
the same inode, as long as no reference to it is given back while another process is.

* `FileCall` — the calls.
* `exclusive_run` — **the lock excludes, if `IPut` finds nobody else inside.**
* `exclusive_close` — and if it does not, closing a file lets another process in.
-/

namespace UnixV6pp

open Threads Kernel

namespace SystemCalls

variable {n : ℕ}

/-- The calls on files. -/
inductive FileCall
  | read (fd : Fd)
  | write (fd : Fd)
  | open
  | creat
  | link
  | unLink
  | dup (fd : Fd)
  | fork
  | close (fd : Fd)

def FileCall.code (p : Fin n) : FileCall → KCode n Unit
  | .read fd => rdwr p fd FREAD
  | .write fd => rdwr p fd FWRITE
  | .open => openCall p
  | .creat => SystemCalls.creat p
  | .link => SystemCalls.link p
  | .unLink => SystemCalls.unLink p
  | .dup fd => SystemCalls.dup p fd
  | .fork => SystemCalls.fork p
  | .close fd => SystemCalls.close p fd

/-- The processes that use files. -/
def fileMachine (n : ℕ) : Machine (Fin n) (Kernel n) (Action n) FileCall :=
  machine (fun _ _ _ => true) FileCall.code

theorem fileCall_spec {E : Prop} {X : Kernel n → Prop} {ok : Fin n → Kernel n → Action n → Prop}
    (hR : Rules E X ok) (hforget : ∀ s p i, s.Valid → X s → Allowed E s p (.forget i) →
      ok p s (.forget i) → X (s.exec p (.forget i)))
    {g : Process} {p : Fin n} (hg : Steady g) (t : FileCall) :
    KSpec X ok p g (FileCall.code p t) fun _ g' => Level g g' := by
  cases t with
  | read fd => exact rdwr_spec hR hg fd FREAD
  | write fd => exact rdwr_spec hR hg fd FWRITE
  | «open» => exact openCall_spec hR hg
  | creat => exact creat_spec hR hforget hg
  | link => exact link_spec hR hforget hg
  | unLink => exact unLink_spec hR hg
  | dup fd => exact dup_spec hR hg fd
  | fork => exact fork_spec hR hg
  | close fd => exact close_spec hR hg fd

/-- The lock of an inode excludes. -/
structure Exclusive (s : Kernel n) : Prop where
  locked : ∀ p i, (s.loc p).inside i = true → (s.inode i).locked = true
  alone : ∀ p q i, (s.loc p).inside i = true → (s.loc q).inside i = true → p = q

theorem rules_held : Rules True (n := n) Held PutApart where
  step _ _ _ hs h ha hplain hok := h.exec hs ha (.inl hplain) hok
  locked _ _ p i hs h hin := ⟨h.locked p i hin, (hs.count_pos (.inl (h.grip p i hin))).ne'⟩

theorem held_boot {disk : ℤ → ℤ → DiskInode} {alive : Fin n → Bool} : (boot disk alive).Held where
  locked _ _ h := absurd h Bool.false_ne_true
  grip _ _ h := absurd h Bool.false_ne_true
  alone _ _ _ h := absurd h Bool.false_ne_true

theorem Level.steady {g g' : Process} (h : Level g g') (hg : g.loc.Steady) : g'.loc.Steady := by
  obtain ⟨J, hJ⟩ := h
  rw [hJ]
  exact hg.update _ _

/-- **The lock excludes**, in every run in which `IPut` of a reference that is not the last one
finds nobody else inside the inode. -/
theorem exclusive_run {disk : ℤ → ℤ → DiskInode} {alive : Fin n → Bool}
    {c : Config (Fin n) (Kernel n) (Action n)}
    (hrun : (fileMachine n).Runs PutApart (start disk alive) c) : Exclusive c.state := by
  have hrule := valid_run rules_held held_boot Local.steady_empty ?_ hrun
  · have hheld : c.state.Held := hrule.1.2
    exact ⟨hheld.locked, hheld.alone⟩
  · rintro p t l - hl g hg rfl
    refine (fileCall_spec rules_held ?_ ⟨hg, hl⟩ t).mono fun _ g' h => h.steady hl
    exact fun s p i hs h ha hok => h.exec hs ha (.inr ⟨i, rfl⟩) hok

/-- `PutApart`, as a test. -/
def putApart (p : Fin n) (s : Kernel n) : Action n → Bool
  | .release i false _ => ∀ q, q ≠ p → (s.loc q).inside i = false
  | _ => true

theorem putApart_of_test (p : Fin n) (s : Kernel n) (a : Action n) (h : putApart p s a = true) :
    PutApart p s a := by
  cases a with
  | release i last src =>
    cases last with
    | true => trivial
    | false =>
      have hout : ∀ q, q ≠ p → (s.loc q).inside i = false := of_decide_eq_true h
      exact hout
  | _ => trivial

/-- The ways of `Open` of inode 5 in the root directory, when it has to be read. -/
def openFirst : List ℕ := [3, 0, 1, 1, 0, 1, 0, 5, 0, 0, 1, 1, 1]

/-- The same when it is in the table. -/
def openAgain : List ℕ := [3, 0, 1, 1, 0, 1, 0, 5, 0, 1, 1]

/-- Two processes have the file open, and the first one sleeps while it reads. -/
def beginRead : List (Turn (Fin 2) FileCall) :=
  [.call 0 .open openFirst, .call 1 .open openAgain, .call 1 .open openAgain, .call 0 (.read 0) [1]]

theorem exclusive_run_read : ∃ c, (fileMachine 2).Runs PutApart
    (start (fun _ _ => ⟨IALLOC, 1⟩) fun _ => true) c ∧ (c.state.loc 0).inside 1 = true ∧
      Exclusive c.state := by
  obtain ⟨c, hrun, hin⟩ := (fileMachine 2).exists_run_of_play putApart putApart_of_test beginRead
    (fun c => (c.state.loc 0).inside 1 = true)
    (c := start (fun _ _ => ⟨IALLOC, 1⟩) fun _ => true) (by decide +kernel)
  exact ⟨c, hrun, hin, exclusive_run hrun⟩

/-- Otherwise closing a file can unlock an inode that another process is reading. -/
theorem exclusive_close : ∃ c, (fileMachine 2).Runs (fun _ _ _ => True)
    (start (fun _ _ => ⟨IALLOC, 1⟩) fun _ => true) c ∧ ¬Exclusive c.state := by
  obtain ⟨c, hrun, hin₀, hin₁⟩ := (fileMachine 2).exists_run_of_play (fun _ _ _ => true)
    (fun _ _ _ _ => trivial) (beginRead ++ [.call 1 (.close 0) [], .call 1 (.read 1) [1]])
    (fun c => (c.state.loc 0).inside 1 = true ∧ (c.state.loc 1).inside 1 = true)
    (c := start (fun _ _ => ⟨IALLOC, 1⟩) fun _ => true) (by decide +kernel)
  exact ⟨c, hrun, fun h => absurd (h.alone 0 1 1 hin₀ hin₁) (by decide)⟩

end SystemCalls
end UnixV6pp
