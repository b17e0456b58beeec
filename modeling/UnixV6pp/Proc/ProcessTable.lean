import Mathlib.Data.Fintype.Basic
import Mathlib.Logic.Function.Basic
import Mathlib.Order.Basic
import UnixV6pp.Lib.Words

/-!
# The process table

The entries of `ProcessManager::process`, and what a process, or an interrupt, does to them when
it wakes processes up or sends them a signal.

* `Process`, `ProcessManager` — an entry, and the table with the variables of the scheduler.
* `setRun`, `wakeUpAll`, `pSignal`, `setPri` — the operations.
* `Woken` — **what waking up may change**: only entries that were asleep or stopped, which are
  ready to run then.
* `wakeUpAll_isSleepOn` — nobody is left asleep on a channel that has been woken up.
-/

namespace UnixV6pp
namespace Proc

/-- `NPROC`. -/
abbrev NPROC : ℕ := 100

/-- An index into `process[]`. -/
abbrev Slot := Fin NPROC

inductive ProcessState
  | SNULL | SSLEEP | SWAIT | SRUN | SIDL | SZOMB | SSTOP
deriving DecidableEq, Repr

/-- The reasons to sleep: the addresses of what is waited for. -/
inductive Channel
  | null
  /-- `&process[i]`. -/
  | process (i : Slot)
  /-- `&Time::tout`. -/
  | tout
  /-- `&RunIn`. -/
  | runIn
  /-- `&RunOut`. -/
  | runOut
  /-- Buffers, inodes, pipes, queues of the terminal. -/
  | other (address : ℕ)
deriving DecidableEq, Repr

/-- `SLOAD`: the image is in memory. -/
def SLOAD : UInt32 := 0x1

def NSIG : ℤ := 32
def SIGKILL : ℤ := 9
def SIGINT : ℤ := 2
def PUSER : ℤ := 100

/-- What is kept of an entry; the size and place of the image and its text are not used here. -/
structure Process where
  pUid : ℤ
  pPid : ℤ
  pPpid : ℤ
  pStat : ProcessState
  pFlag : UInt32
  pPri : ℤ
  pCpu : ℤ
  pNice : ℤ
  pTime : ℤ
  pWchan : Channel
  pSig : ℤ
  /-- The address of the terminal; `NULL` is 0. -/
  pTtyp : ℕ
deriving DecidableEq, Repr

namespace Process

/-- An entry as the constructor leaves it, in memory that is 0. -/
def empty : Process where
  pUid := 0
  pPid := 0
  pPpid := -1
  pStat := .SNULL
  pFlag := 0
  pPri := 0
  pCpu := 0
  pNice := 0
  pTime := 0
  pWchan := .null
  pSig := 0
  pTtyp := 0

variable (p : Process)

/-- The image is in memory. -/
abbrev Loaded : Prop := p.pFlag &&& SLOAD ≠ 0

/-- `IsSleepOn`. -/
abbrev IsSleepOn (chan : Channel) : Prop :=
  p.pWchan = chan ∧ (p.pStat = .SWAIT ∨ p.pStat = .SSLEEP)

/-- The states `SetRun` is applied to. -/
abbrev Resting : Prop := p.pStat = .SWAIT ∨ p.pStat = .SSLEEP ∨ p.pStat = .SSTOP

variable {p} in
theorem IsSleepOn.resting {chan : Channel} (h : p.IsSleepOn chan) : p.Resting :=
  h.2.imp_right .inl

variable {p} in
theorem IsSleepOn.pStat_ne {chan : Channel} (h : p.IsSleepOn chan) :
    p.pStat ≠ .SNULL ∧ p.pStat ≠ .SRUN ∧ p.pStat ≠ .SZOMB := by
  rcases h.2 with h | h <;> simp [h]

/-- An entry that has been made ready to run. -/
def awake : Process := { p with pWchan := .null, pStat := .SRUN }

@[simp] theorem awake_pStat : p.awake.pStat = .SRUN := rfl

theorem awake_not_isSleepOn (chan : Channel) : ¬p.awake.IsSleepOn chan := by
  simp [awake, IsSleepOn]

end Process

structure ProcessManager where
  process : Slot → Process
  curPri : ℤ
  runRun : ℤ
  runIn : ℤ
  runOut : ℤ
  /-- The bits of `SwtchNum`. -/
  swtchNum : UInt32
  /-- The place `Select` has chosen last. -/
  lastSelect : Slot
  nextUniquePid : UInt32

namespace ProcessManager

variable (pm : ProcessManager) {i j : Slot} {chan : Channel}

/-- The table with one entry replaced. -/
def setProc (i : Slot) (p : Process) : ProcessManager :=
  { pm with process := Function.update pm.process i p }

@[simp] theorem setProc_self (i : Slot) (p : Process) : (pm.setProc i p).process i = p :=
  Function.update_self _ _ _

@[simp] theorem setProc_of_ne (p : Process) (h : j ≠ i) :
    (pm.setProc i p).process j = pm.process j :=
  Function.update_of_ne h _ _

theorem setProc_process (i j : Slot) (p : Process) :
    (pm.setProc i p).process j = if j = i then p else pm.process j :=
  Function.update_apply _ _ _ _

/-- The first half of `SetRun`. -/
def ready (i : Slot) : ProcessManager :=
  let pm' := pm.setProc i (pm.process i).awake
  if (pm.process i).pPri < pm.curPri then { pm' with runRun := pm.runRun + 1 } else pm'

/-- Wake up everybody on the channel, each in the way that `run` says. -/
def wakeEach (run : ProcessManager → Slot → ProcessManager) (chan : Channel) :
    List Slot → ProcessManager → ProcessManager
  | [], pm => pm
  | i :: is, pm =>
    if (pm.process i).IsSleepOn chan then wakeEach run chan is (run pm i)
    else wakeEach run chan is pm

/-- `SetRun`.  When it wakes up the swapper, `RunOut` is 0 and the second half of the calls made
from there does nothing. -/
def setRun (i : Slot) : ProcessManager :=
  let pm' := pm.ready i
  if pm'.runOut ≠ 0 ∧ ¬(pm'.process i).Loaded then
    wakeEach ready .runOut (List.finRange NPROC) { pm' with runOut := 0 }
  else pm'

def wakeUpAll (chan : Channel) : ProcessManager :=
  wakeEach setRun chan (List.finRange NPROC) pm

/-- `SetPri`. -/
def setPri (i : Slot) : ProcessManager :=
  let p := pm.process i
  let priority := min (p.pCpu.tdiv 16 + (PUSER + p.pNice)) 255
  let pm' := pm.setProc i { p with pPri := priority }
  if priority > pm.curPri then { pm' with runRun := pm.runRun + 1 } else pm'

/-- `PSignal`. -/
def pSignal (i : Slot) (signal : ℤ) : ProcessManager :=
  if signal ≥ NSIG then pm
  else
    let p := pm.process i
    let p := if p.pSig ≠ SIGKILL then { p with pSig := signal } else p
    let p := if p.pPri > PUSER then { p with pPri := PUSER } else p
    let pm := pm.setProc i p
    if p.pStat = .SWAIT then pm.setRun i else pm

/-- What waking up may change. -/
structure Woken (pm pm' : ProcessManager) : Prop where
  process : ∀ i, pm'.process i = pm.process i ∨
    ((pm.process i).Resting ∧ pm'.process i = (pm.process i).awake)
  curPri : pm'.curPri = pm.curPri
  runIn : pm'.runIn = pm.runIn
  swtchNum : pm'.swtchNum = pm.swtchNum
  lastSelect : pm'.lastSelect = pm.lastSelect
  nextUniquePid : pm'.nextUniquePid = pm.nextUniquePid

namespace Woken

variable {pm pm' pm'' : ProcessManager}

theorem refl (pm : ProcessManager) : Woken pm pm := ⟨fun _ => .inl rfl, rfl, rfl, rfl, rfl, rfl⟩

/-- An entry that is free, or a zombie, or ready to run stays what it is. -/
theorem eq_of_stat (h : Woken pm pm') (hi : ¬(pm.process i).Resting) :
    pm'.process i = pm.process i := by
  rcases h.process i with heq | ⟨hrest, -⟩
  · exact heq
  · exact absurd hrest hi

theorem trans (h : Woken pm pm') (h' : Woken pm' pm'') : Woken pm pm'' where
  process i := by
    rcases h.process i with heq | ⟨hrest, heq⟩
    · rw [← heq]
      exact h'.process i
    · -- an entry is woken up once
      refine .inr ⟨hrest, ?_⟩
      rw [h'.eq_of_stat (by simp [heq]), heq]
  curPri := h'.curPri.trans h.curPri
  runIn := h'.runIn.trans h.runIn
  swtchNum := h'.swtchNum.trans h.swtchNum
  lastSelect := h'.lastSelect.trans h.lastSelect
  nextUniquePid := h'.nextUniquePid.trans h.nextUniquePid

/-- Waking up changes the state and the channel only. -/
theorem entry (h : Woken pm pm') (i : Slot) :
    pm'.process i = { pm.process i with
      pStat := (pm'.process i).pStat, pWchan := (pm'.process i).pWchan } := by
  rcases h.process i with heq | ⟨-, heq⟩ <;> rw [heq]
  rfl

theorem pPid (h : Woken pm pm') (i : Slot) : (pm'.process i).pPid = (pm.process i).pPid := by
  rw [h.entry i]

theorem pPpid (h : Woken pm pm') (i : Slot) : (pm'.process i).pPpid = (pm.process i).pPpid := by
  rw [h.entry i]

theorem pSig (h : Woken pm pm') (i : Slot) : (pm'.process i).pSig = (pm.process i).pSig := by
  rw [h.entry i]

/-- An entry that is not asleep on a channel does not go to sleep. -/
theorem not_isSleepOn (h : Woken pm pm') (hi : ¬(pm.process i).IsSleepOn chan) :
    ¬(pm'.process i).IsSleepOn chan := by
  rcases h.process i with heq | ⟨-, heq⟩ <;> rw [heq]
  · exact hi
  · exact Process.awake_not_isSleepOn _ _

end Woken

/-! ### One entry -/

theorem ready_process (i : Slot) :
    (pm.ready i).process = Function.update pm.process i (pm.process i).awake := by
  unfold ready
  dsimp only
  split <;> rfl

@[simp] theorem ready_self (i : Slot) : (pm.ready i).process i = (pm.process i).awake := by
  rw [ready_process, Function.update_self]

@[simp] theorem ready_runOut (i : Slot) : (pm.ready i).runOut = pm.runOut := by
  unfold ready
  dsimp only
  split <;> rfl

theorem ready_woken (h : (pm.process i).Resting) : Woken pm (pm.ready i) where
  process j := by
    rw [ready_process]
    by_cases hj : j = i
    · subst hj
      exact .inr ⟨h, Function.update_self _ _ _⟩
    · exact .inl (Function.update_of_ne hj _ _)
  curPri := by unfold ready; dsimp only; split <;> rfl
  runIn := by unfold ready; dsimp only; split <;> rfl
  swtchNum := by unfold ready; dsimp only; split <;> rfl
  lastSelect := by unfold ready; dsimp only; split <;> rfl
  nextUniquePid := by unfold ready; dsimp only; split <;> rfl

/-! ### Everybody on a channel -/

section WakeEach

variable {run : ProcessManager → Slot → ProcessManager}

/-- What one call does to a sleeper, the loop does. -/
theorem wakeEach_woken (hrun : ∀ pm i, (pm.process i).IsSleepOn chan → Woken pm (run pm i))
    (is : List Slot) : Woken pm (wakeEach run chan is pm) := by
  induction is generalizing pm with
  | nil => exact .refl pm
  | cons i is ih =>
    rw [wakeEach]
    split
    · next hsleep => exact (hrun pm i hsleep).trans (ih _)
    · exact ih pm

/-- Nobody the loop has come by is left asleep on the channel. -/
theorem wakeEach_isSleepOn (hrun : ∀ pm i, (pm.process i).IsSleepOn chan → Woken pm (run pm i))
    (hself : ∀ pm i, (run pm i).process i = (pm.process i).awake) {is : List Slot}
    (hi : i ∈ is) : ¬((wakeEach run chan is pm).process i).IsSleepOn chan := by
  induction is generalizing pm with
  | nil => simp at hi
  | cons j is ih =>
    rw [wakeEach]
    rcases List.mem_cons.mp hi with rfl | hi
    · -- the rest of the loop does not put it to sleep again
      split
      · refine (wakeEach_woken _ hrun is).not_isSleepOn ?_
        rw [hself]
        exact Process.awake_not_isSleepOn _ _
      · next hsleep => exact (wakeEach_woken _ hrun is).not_isSleepOn hsleep
    · split <;> exact ih _ hi

end WakeEach

/-- The second half of `SetRun`. -/
theorem wakeEach_ready_woken (chan : Channel) :
    Woken pm (wakeEach ready chan (List.finRange NPROC) pm) :=
  wakeEach_woken pm (fun pm _ hi => ready_woken pm hi.resting) _

theorem setRun_woken (h : (pm.process i).Resting) : Woken pm (pm.setRun i) := by
  have hready : Woken pm (pm.ready i) := ready_woken pm h
  unfold setRun
  dsimp only
  split
  · -- `RunOut` does not count for `Woken`
    have hzero : Woken pm { pm.ready i with runOut := 0 } :=
      ⟨hready.process, hready.curPri, hready.runIn, hready.swtchNum, hready.lastSelect,
        hready.nextUniquePid⟩
    exact hzero.trans (wakeEach_ready_woken _ _)
  · exact hready

/-- The whole of `SetRun` leaves the entry awake. -/
theorem setRun_self (i : Slot) : (pm.setRun i).process i = (pm.process i).awake := by
  unfold setRun
  dsimp only
  split
  · have hstat : ¬((pm.ready i).process i).Resting := by simp
    have hwoken : Woken { pm.ready i with runOut := 0 } _ := wakeEach_ready_woken _ .runOut
    rw [hwoken.eq_of_stat hstat]
    exact pm.ready_self i
  · exact pm.ready_self i

theorem wakeUpAll_woken (chan : Channel) : Woken pm (pm.wakeUpAll chan) :=
  wakeEach_woken pm (fun pm _ hi => setRun_woken pm hi.resting) _

/-- **Nobody is left asleep on a channel that has been woken up.** -/
theorem wakeUpAll_isSleepOn (chan : Channel) (i : Slot) :
    ¬((pm.wakeUpAll chan).process i).IsSleepOn chan :=
  wakeEach_isSleepOn pm (fun pm _ hi => setRun_woken pm hi.resting) setRun_self
    (List.mem_finRange i)

end ProcessManager

/-- `SetupProcessZero` on the cleared table: the first process is in memory and stays there. -/
def bootTable : ProcessManager where
  process := Function.update (fun _ => .empty) 0 { Process.empty with pStat := .SRUN, pFlag := 0x3 }
  curPri := 0
  runRun := 0
  runIn := 0
  runOut := 0
  swtchNum := 0
  lastSelect := 0
  nextUniquePid := 1

end Proc
end UnixV6pp
