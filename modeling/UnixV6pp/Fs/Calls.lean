import UnixV6pp.Fs.InodeTable
import UnixV6pp.Lib.Schedule

/-!
# Runs of the kernel

After booting, every process in user mode may start a system call, and whoever does not
sleep may go on with the call it is in.

* `boot` — the tables when the root directory has been read.
* `machine` — the processes, for the calls that are looked at.
* `call_spec`, `valid_run` — **what all calls keep, all runs keep.**
-/

namespace UnixV6pp

open Tally Threads

namespace Kernel

variable {n : ℕ}

/-- `DeviceManager::ROOTDEV` and `FileSystem::ROOTINO`. -/
def ROOTDEV : ℤ := 0
def ROOTINO : ℤ := 0

/-- An entry of the table of inodes as the constructor leaves it. -/
def emptyInode : InodeEntry where
  iFlag := 0
  iMode := 0
  iCount := 0
  iNlink := 0
  iNumber := -1
  iUid := -1
  iGid := -1
  iSize := 0
  iAddr := fun _ => 0
  iLastr := -1
  iDev := -1

/-- The root directory, with so many references to it. -/
def rootInode (d : DiskInode) (count : ℤ) : InodeEntry :=
  { emptyInode with
    iMode := d.dMode
    iCount := count
    iNlink := d.dNlink
    iNumber := ROOTINO
    iDev := ROOTDEV }

/-- A process that has nothing open and is in the root directory. -/
def bootProcess (alive : Bool) : Process where
  whereabouts := if alive then .user else .gone
  pWchan := none
  awaiting := none
  uOfiles := fun _ => none
  uCdir := 0
  pTextp := none
  uError := false
  ids := fun _ => (0, 0)
  loc := Local.empty

/-- The kernel after booting, with these inodes on the disk and these processes alive: `main` has
read the root directory and released its lock. -/
def boot (disk : ℤ → ℤ → DiskInode) (alive : Fin n → Bool) : Kernel n where
  inode i := if i = 0 then
      rootInode (disk ROOTDEV ROOTINO) (tally (fun q => if alive q then some 0 else none) i + 1)
    else emptyInode
  file _ := ⟨0, 0, 0, false⟩
  text _ := ⟨none, 0, false⟩
  proc q := bootProcess (alive q)
  disk := disk
  rootDirInode := 0
  exeCnt := 0
  lost := fun _ => 0

theorem cwd_bootProcess (alive : Bool) :
    (bootProcess alive).cwd = if alive then some 0 else none := by
  cases alive <;> rfl

theorem fds_bootProcess (alive : Bool) : (bootProcess alive).fds = fun _ => none := by
  funext fd
  unfold Process.fds
  split <;> rfl

section

variable {disk : ℤ → ℤ → DiskInode} {alive : Fin n → Bool}

theorem boot_ok : (boot disk alive).books.Ok where
  names f := by
    have hfds : ∀ q, (boot disk alive).books.fds q = fun _ => none :=
      fun q => fds_bootProcess (alive q)
    have hclosing : (boot disk alive).books.closing = fun _ => none := rfl
    change 0 = _
    unfold Books.names
    simp only [hfds, hclosing, tally_none, Finset.sum_const_zero, add_zero]
  holders i := by
    have hcwd : (boot disk alive).books.cwd = fun q => if alive q then some 0 else none :=
      funext fun q => cwd_bootProcess (alive q)
    have howner : (boot disk alive).books.owner = fun _ => none := rfl
    have htext : (boot disk alive).books.textOwner = fun _ => none := rfl
    have hrefs : ∀ q, (boot disk alive).books.refs q i = 0 := fun _ => rfl
    have hlost : (boot disk alive).books.lost i = 0 := rfl
    have hroot : (boot disk alive).books.root = 0 := rfl
    change (if i = 0 then rootInode (disk ROOTDEV ROOTINO) _ else emptyInode).iCount = _
    unfold Books.holders
    simp only [hrefs, hcwd, howner, htext, hlost, hroot, tally_none, Nat.cast_zero,
      Finset.sum_const_zero, zero_add, add_zero]
    by_cases hi : i = 0
    · rw [if_pos hi, hi]
      congr 1
    · rw [if_neg hi]
      have hnone : ∀ q, (if alive q = true then some (0 : Slot) else none) ≠ some i := by
        intro q hq
        split at hq
        · exact hi (Option.some.inj hq).symm
        · cases hq
      have hroot0 : ∀ _ : Unit, some (0 : Slot) ≠ some i :=
        fun _ h => hi (Option.some.inj h).symm
      rw [tally_eq_zero hnone, tally_eq_zero hroot0]
      rfl
  users t h := absurd rfl h
  used p t h := by
    change (bootProcess (alive p)).textUse = some t at h
    cases halive : alive p <;> rw [halive] at h <;> cases h
  owned f h := absurd rfl h
  unowned f h := absurd rfl h
  fresh p f h := absurd h Bool.false_ne_true
  textOwned t h := absurd rfl h
  torn p i src h := by cases h
  tornText p q i j t h := by cases h

/-- The tables are valid after booting. -/
theorem boot_valid : (boot disk alive).Valid where
  books := boot_ok
  sealed p i src h := by cases h
  unique i j hi hj _ := by
    have hzero : ∀ k : Slot, ((boot disk alive).inode k).iCount ≠ 0 → k = 0 := by
      intro k hk
      by_contra hne
      apply hk
      change (if k = 0 then _ else emptyInode).iCount = 0
      rw [if_neg hne]
      rfl
    rw [hzero i hi, hzero j hj]
  known p i h := absurd h (Nat.lt_irrefl 0)
  borrowed p b h := by cases h
  gone p _ := ⟨rfl, ⟨rfl, rfl, rfl, rfl⟩⟩

end

/-! ### Runs -/

/-- Whether the process may run. -/
def runnable (p : Fin n) (s : Kernel n) : Bool := (s.proc p).live && (s.proc p).pWchan = none

end Kernel

namespace SystemCalls

open Kernel

variable {n : ℕ} {τ : Type}

/-- The processes with these calls. -/
def machine (may : Fin n → τ → Local → Bool) (codeOf : Fin n → τ → KCode n Unit) :
    Machine (Fin n) (Kernel n) (Action n) τ where
  exec p a s := s.exec p a
  runnable := runnable
  may p t s := may p t (s.loc p)
  codeOf p t := call (codeOf p t)

/-- The kernel after booting, with all processes in user mode. -/
def start (disk : ℤ → ℤ → DiskInode) (alive : Fin n → Bool) :
    Config (Fin n) (Kernel n) (Action n) :=
  ⟨boot disk alive, fun _ => .ret ()⟩

section

variable {E : Prop} {X : Kernel n → Prop} {ok : Fin n → Kernel n → Action n → Prop}
variable {may : Fin n → τ → Local → Bool} {codeOf : Fin n → τ → KCode n Unit} {p : Fin n}

/-- A call leaves a process with what its program leaves it with. -/
theorem call_wp (hR : Rules E X ok) {k : KCode n Unit} {Q : Local → Prop} {s : Kernel n}
    (hI : s.Valid ∧ X s) (hlive : (s.proc p).live = true)
    (hk : ∀ g : Process, g.whereabouts = .kernel → g.loc = s.loc p →
      KSpec X ok p g k fun _ g' => Q g'.loc) :
    Kwp X ok p (call k) (fun _ s' => (s'.Valid ∧ X s') ∧ Q (s'.loc p)) s := by
  unfold call
  apply bind_wp.2
  refine act_wp hR hI hlive trivial fun hI' => ?_
  have hview : ((s.exec p .enter).view p).whereabouts = .kernel := by
    change ((s.setProc p _).view p).whereabouts = _
    rw [view_setProc, Process.view_whereabouts]
  have hloc : ((s.exec p .enter).view p).loc = s.loc p := by
    rw [loc_view]
    exact loc_setProc_self
  apply bind_wp.2
  refine wp_mono ?_ (hk _ hview hloc _ hI' rfl)
  rintro _ s₁ ⟨hI₁, hQ⟩
  refine act_wp hR hI₁ trivial trivial fun hI₂ => ⟨hI₂, ?_⟩
  have hleave : (s₁.leave p).loc p = s₁.loc p := by
    unfold leave
    split
    · exact loc_setProc_self
    · rfl
  change Q ((s₁.leave p).loc p)
  rw [hleave, ← loc_view]
  exact hQ

/-- **What all calls keep, all runs keep.** -/
theorem valid_run (hR : Rules E X ok) {Q : Local → Prop} {disk : ℤ → ℤ → DiskInode}
    {alive : Fin n → Bool} {c : Config (Fin n) (Kernel n) (Action n)}
    (hX : X (boot disk alive)) (hQ : Q Local.empty)
    (hcalls : ∀ (p : Fin n) t l, may p t l = true → Q l → ∀ g : Process,
      g.whereabouts = .kernel → g.loc = l → KSpec X ok p g (codeOf p t) fun _ g' => Q g'.loc)
    (hrun : (machine may codeOf).Runs ok (start disk alive) c) :
    (c.state.Valid ∧ X c.state) ∧ ∀ p, c.code p = .ret () → Q (c.state.loc p) := by
  have hview : ∀ (s : Kernel n) p, (s.view p).loc = s.loc p := fun s p => loc_view
  have hrule := @run_invariant (Fin n) (Kernel n) (Action n) Process _ (fun p a s => s.exec p a)
    (fun p s => runnable p s = true) (machine may codeOf).Calls ok (fun s => s.Valid ∧ X s)
    (fun p s => Kernel.view p s) (fun g => Q g.loc)
    (fun p q a s hpq => view_exec_of_ne a (Ne.symm hpq)) ?_ (start disk alive) c (fun _ => rfl)
    ⟨boot_valid, hX⟩ ?_ hrun
  · refine ⟨hrule.1, fun p hret => ?_⟩
    rw [← hview]
    exact hrule.2 p hret
  · rintro p s P hI hrunnable ⟨t, hmay, rfl⟩ hquiet
    have hlive : (s.proc p).live = true := (Bool.and_eq_true _ _ ▸ hrunnable).1
    rw [hview] at hquiet
    refine wp_mono ?_ (call_wp hR hI hlive (hcalls p t _ hmay hquiet))
    rintro _ s' ⟨hI', hQ'⟩
    refine ⟨hI', ?_⟩
    rwa [hview]
  · intro p
    rw [hview]
    exact hQ

end

end SystemCalls
end UnixV6pp
