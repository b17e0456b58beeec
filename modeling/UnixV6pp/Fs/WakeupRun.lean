import UnixV6pp.Fs.Wakeup
import UnixV6pp.Fs.LockRun

/-!
# No process sleeps for an unlocked inode

Processes get, lock, unlock and give back inodes and change directories.  A process that
sleeps for the lock of an inode is woken before the inode is found unlocked by anybody.

* `LockCall` — the calls.
* `wakeup_run` — **no wakeup is lost**, if `IGet` never has to wait and `Link` unlocks no
  inode that is wanted.
* `wakeup_iGet` — a process that waits in `IGet` is never woken.
-/

namespace UnixV6pp

open Threads Kernel

namespace SystemCalls

variable {n : ℕ}

/-- What processes do with the locks of inodes. -/
inductive LockCall
  | iGet (dev number : ℤ)
  | iPut (i : Slot)
  | nFlock (i : Slot)
  | prele (i : Slot)
  | link
  | unLink

namespace LockCall

/-- Only who has a reference to an inode uses it. -/
def may (_ : Fin n) (t : LockCall) (l : Local) : Bool :=
  match t with
  | .iPut i | .prele i | .nFlock i => 0 < l.refs i
  | _ => true

def code (p : Fin n) : LockCall → KCode n Unit
  | .iGet dev number => do
    let _ ← SystemCalls.iGet dev number
    pure ()
  | .iPut i => SystemCalls.iPut i .hand
  | .nFlock i => SystemCalls.nFlock i
  | .prele i => SystemCalls.nFrele i
  | .link => SystemCalls.link p
  | .unLink => SystemCalls.unLink p

end LockCall

/-- The processes that lock inodes. -/
def lockMachine (n : ℕ) : Machine (Fin n) (Kernel n) (Action n) LockCall :=
  machine LockCall.may LockCall.code

/-- Nobody sleeps for the lock of an inode that is not locked, and who sleeps for it sleeps on
the channel that `Prele` wakes and has noted it. -/
def NoLostWakeup (s : Kernel n) : Prop :=
  ∀ p i, (s.proc p).awaiting = some i → (s.inode i).locked = true ∧ (s.inode i).wanted = true ∧
    (s.proc p).pWchan = some (.inode i.val)

theorem rules_wakesAll : Rules False (n := n) WakesAll WaitApart where
  step _ _ _ hs h ha hplain hok := h.exec hs ha (.inl hplain) hok
  locked h := h.elim

theorem lockCall_spec {g : Process} {p : Fin n} (hg : Steady g) (t : LockCall)
    (hmay : LockCall.may p t g.loc = true) :
    KSpec WakesAll WaitApart p g (LockCall.code p t) fun _ g' => g'.loc.Steady := by
  have hR := @rules_wakesAll n
  cases t with
  | iGet dev number =>
    apply (iGet_spec hR hg.inCall).bind
    rintro r g' ⟨hr, -⟩
    apply Spec.ret
    cases r with
    | none => exact (Kept.steady hr hg).loc
    | some i => exact (Got.steady hr hg).loc
  | iPut i =>
    have hrefs : 0 < g.loc.refs i := of_decide_eq_true hmay
    apply (iPut_spec hR hg.inCall hrefs).mono
    rintro _ g' rfl
    exact hg.loc.update _ _
  | nFlock i =>
    have hrefs : 0 < g.loc.refs i := of_decide_eq_true hmay
    apply (nFlock_spec hR (.inl hrefs)).mono
    rintro _ g' rfl
    exact hg.loc.update _ _
  | prele i =>
    have hrefs : 0 < g.loc.refs i := of_decide_eq_true hmay
    apply (prele_spec hR hg.inCall (.inl (.inl hrefs)) False.elim).mono
    rintro _ g' rfl
    exact hg.loc.update _ _
  | link =>
    refine (link_spec hR ?_ hg).mono fun _ g' h => h.steady hg.loc
    exact fun s p i hs h ha hok => h.exec hs ha (.inr ⟨i, rfl⟩) hok
  | unLink => exact (unLink_spec hR hg).mono fun _ g' h => h.steady hg.loc

/-- **No wakeup is lost**, in every run in which `IGet` does not find its inode locked and `Link`
unlocks no inode that is wanted. -/
theorem wakeup_run {disk : ℤ → ℤ → DiskInode} {alive : Fin n → Bool}
    {c : Config (Fin n) (Kernel n) (Action n)}
    (hrun : (lockMachine n).Runs WaitApart (start disk alive) c) : NoLostWakeup c.state := by
  have hboot : (boot disk alive).WakesAll := fun p i h => by cases h
  have hrule := valid_run rules_wakesAll hboot Local.steady_empty ?_ hrun
  · intro p i hp
    obtain ⟨hlocked, hwanted, hchan, -⟩ := hrule.1.2 p i hp
    exact ⟨hlocked, hwanted, hchan⟩
  · rintro p t l hmay hl g hg rfl
    exact lockCall_spec ⟨hg, hl⟩ t hmay

/-- `WaitApart`, as a test. -/
def waitApart (_ : Fin n) (s : Kernel n) : Action n → Bool
  | .want _ chan => chan ≠ .pInode
  | .clearLock i => !(s.inode i).wanted
  | _ => true

theorem waitApart_of_test (p : Fin n) (s : Kernel n) (a : Action n) (h : waitApart p s a = true) :
    WaitApart p s a := by
  cases a with
  | want i chan =>
    have hne : chan ≠ .pInode := of_decide_eq_true h
    exact hne
  | clearLock i =>
    have hwanted : (!(s.inode i).wanted) = true := h
    exact (Bool.not_eq_true' _).mp hwanted
  | _ => trivial

/-- Process 0 gets inode 5 and unlocks it, process 1 gets it, and process 0 wants the lock again. -/
def lockAgain : List (Turn (Fin 2) LockCall) :=
  [.call 0 (.iGet 0 5) [0, 1], .call 0 (.prele 1) [], .call 1 (.iGet 0 5) [],
    .call 0 (.nFlock 1) []]

/-- A process that waits in `NFlock` sleeps where it is woken. -/
theorem wakeup_run_nFlock : ∃ c, (lockMachine 2).Runs WaitApart
    (start (fun _ _ => ⟨IALLOC, 1⟩) fun _ => true) c ∧ (c.state.proc 0).awaiting = some 1 ∧
      NoLostWakeup c.state := by
  obtain ⟨c, hrun, hwait⟩ := (lockMachine 2).exists_run_of_play waitApart waitApart_of_test
    lockAgain (fun c => (c.state.proc 0).awaiting = some 1)
    (c := start (fun _ _ => ⟨IALLOC, 1⟩) fun _ => true) (by decide +kernel)
  exact ⟨c, hrun, hwait, wakeup_run hrun⟩

/-- A process that waits in `IGet` is still asleep when the inode has been unlocked. -/
theorem wakeup_iGet : ∃ c, (lockMachine 2).Runs (fun _ _ _ => True)
    (start (fun _ _ => ⟨IALLOC, 1⟩) fun _ => true) c ∧ ¬NoLostWakeup c.state := by
  obtain ⟨c, hrun, hwait, hlocked⟩ := (lockMachine 2).exists_run_of_play (fun _ _ _ => true)
    (fun _ _ _ _ => trivial)
    [.call 0 (.iGet 0 5) [0, 1], .call 1 (.iGet 0 5) [], .call 0 (.prele 1) []]
    (fun c => (c.state.proc 1).awaiting = some 1 ∧ (c.state.inode 1).locked = false)
    (c := start (fun _ _ => ⟨IALLOC, 1⟩) fun _ => true) (by decide +kernel)
  refine ⟨c, hrun, fun h => ?_⟩
  have hl := (h 1 1 hwait).1
  rw [hlocked] at hl
  cases hl

end SystemCalls
end UnixV6pp
