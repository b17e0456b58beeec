import UnixV6pp.Lib.Runs
import UnixV6pp.Lib.Words
import UnixV6pp.Proc.ProcessTable

/-!
# The life of a process

`Fork`, `Exit`, `Wait` and the signals, on the process table and the parts of the user areas
they use.

## Main definitions

* `System` — the table, the user areas, and who is in `Wait`.
* `fork`, `exit`, `wait`, `kill`, `signalTTy`, `ssig`, `pSig` — the calls.
* `Event`, `Step` — the calls of any processes in any order, with everything else that goes on
  in the kernel in between.

## Main results

* `Kept` — what signals, wake-ups and the rest of the kernel leave as it is.
* `send_kept`, `send_pSig` — a signal to some of the processes, entry by entry.
-/

namespace UnixV6pp
namespace Proc

inductive Errno
  | NOERROR | ESRCH | EINTR | ECHILD | EAGAIN | EINVAL
deriving DecidableEq, Repr

/-- What the calls use of a user area. -/
structure User where
  uUid : ℤ
  /-- `u_signal[n]`, and the words around the array for other `n`. -/
  uSignal : ℤ → UInt32
  uError : Errno
  /-- `u_ar0[EAX]`. -/
  eax : ℤ

structure System where
  pm : ProcessManager
  user : Slot → User
  /-- `hasChild` of the processes that are in `Wait` and asleep there, or woken up. -/
  waiting : Slot → Option Bool
  /-- The signals sent to a process since it was made, and neither delivered nor cancelled. -/
  sent : Slot → List ℤ

namespace System

variable (s : System) (p : Slot)

abbrev proc (i : Slot) : Process := s.pm.process i

def setProc (i : Slot) (e : Process) : System := { s with pm := s.pm.setProc i e }

def setUser (i : Slot) (u : User) : System := { s with user := Function.update s.user i u }

def setWaiting (i : Slot) (w : Option Bool) : System :=
  { s with waiting := Function.update s.waiting i w }

def setSent (i : Slot) (l : List ℤ) : System := { s with sent := Function.update s.sent i l }

def wakeUpAll (chan : Channel) : System := { s with pm := s.pm.wakeUpAll chan }

def error (e : Errno) : System := s.setUser p { s.user p with uError := e }

/-- The call returns this number. -/
def ret (n : ℤ) : System := s.setUser p { s.user p with eax := n }

/-! ### Signals -/

/-- `IsSig`. -/
def isSig : Bool :=
  (s.proc p).pSig ≠ 0 && (s.user p).uSignal (s.proc p).pSig &&& 1 = 0

/-- `PSignal` to one process. -/
def pSignal (signal : ℤ) (i : Slot) : System :=
  { s with pm := s.pm.pSignal i signal }.setSent i (signal :: s.sent i)

/-- `PSignal` to all processes of the table that the test picks. -/
def send (test : ProcessManager → Slot → Bool) (signal : ℤ) : List Slot → System → System
  | [], s => s
  | i :: is, s =>
    if test s.pm i then send test signal is (s.pSignal signal i) else send test signal is s

/-- The tests of `Kill`. -/
def killTest (p : Slot) (uid pid : ℤ) (pm : ProcessManager) (i : Slot) : Bool :=
  i ≠ p && !(pid ≠ 0 && (pm.process i).pPid ≠ pid) &&
    !(pid = 0 && ((pm.process i).pTtyp ≠ (pm.process p).pTtyp || i = 0)) &&
    !(uid ≠ 0 && uid ≠ (pm.process i).pUid)

/-- `Kill`. -/
def kill (pid signal : ℤ) : System :=
  let test := killTest p (s.user p).uUid pid
  let s' := send test signal (List.finRange NPROC) s
  if (List.finRange NPROC).any (test s.pm) then s' else s'.error p .ESRCH

/-- The test of `ProcessManager::Signal`. -/
def ttyTest (pTTy : ℕ) (pm : ProcessManager) (i : Slot) : Bool := (pm.process i).pTtyp = pTTy

/-- `ProcessManager::Signal`. -/
def signalTTy (pTTy : ℕ) (signal : ℤ) : System :=
  send (ttyTest pTTy) signal (List.finRange NPROC) s

/-- The test of `ScanCodeTranslate` for the interrupt key. -/
def keyTest (pm : ProcessManager) (i : Slot) : Bool := (pm.process i).pPid > 1

/-- The interrupt key. -/
def interrupt : System := send keyTest SIGINT (List.finRange NPROC) s

/-- An exception in user mode, or a pipe without a reader: the process sends itself a signal. -/
def raise (signal : ℤ) : System := s.pSignal signal p

/-- `Ssig`. -/
def ssig (signalIndex : ℤ) (func : UInt32) : System :=
  if signalIndex ≤ 0 ∨ signalIndex ≥ NSIG ∨ signalIndex = SIGKILL then s.error p .EINVAL
  else
    let u := s.user p
    let s := s.setUser p { u with
      eax := (u.uSignal signalIndex).toNat
      uSignal := Function.update u.uSignal signalIndex func }
    if (s.proc p).pSig = signalIndex then
      (s.setProc p { s.proc p with pSig := 0 }).setSent p ((s.sent p).filter (· ≠ signalIndex))
    else s

/-- `PSig` up to the handler, or to the call of `Exit` where there is none. -/
def pSig : System :=
  let signal := (s.proc p).pSig
  let u := s.user p
  let s := (s.setProc p { s.proc p with pSig := 0 }).setSent p ((s.sent p).filter (· ≠ signal))
  if u.uSignal signal ≠ 0 then
    s.setUser p { u with uError := .NOERROR, uSignal := Function.update u.uSignal signal 0 }
  else s

/-! ### Waiting for children -/

/-- The scan of `Wait`: the first zombie among the children, and whether a child was met. -/
def scanChildren (pm : ProcessManager) (pid : ℤ) : List Slot → Bool → Option Slot × Bool
  | [], hasChild => (none, hasChild)
  | i :: is, hasChild =>
    if pid = (pm.process i).pPpid then
      if (pm.process i).pStat = .SZOMB then (some i, true) else scanChildren pm pid is true
    else scanChildren pm pid is hasChild

/-- The entry of a child is given up. -/
def reaped (e : Process) : Process :=
  { e with pStat := .SNULL, pPid := 0, pPpid := -1, pSig := 0, pFlag := 0 }

def PWAIT : ℤ := 40

/-- `Sleep` with a positive priority, until `Swtch`; the call is given up when there is a signal. -/
def sleepWait (hasChild : Bool) : System :=
  if s.isSig p then (s.error p .EINTR).setWaiting p none
  else
    let s := s.setProc p
      { s.proc p with pWchan := .process p, pStat := .SWAIT, pPri := PWAIT }
    let s := s.setWaiting p (some hasChild)
    if s.pm.runIn ≠ 0 then
      { s with pm := { s.pm with runIn := 0 } }.wakeUpAll .runIn
    else s

/-- One round of `Wait`. -/
def waitRound (hasChild : Bool) : System :=
  match scanChildren s.pm (s.proc p).pPid (List.finRange NPROC) hasChild with
  | (some i, _) =>
    ((s.ret p (s.proc i).pPid).setProc i (reaped (s.proc i))).setWaiting p none |>.setSent i []
  | (none, true) => s.sleepWait p true
  | (none, false) => (s.error p .ECHILD).setWaiting p none

/-- `Wait`. -/
def wait : System := s.waitRound p false

/-- The rest of `Sleep`, after somebody has woken up the process, and the next round. -/
def resume (hasChild : Bool) : System :=
  if s.isSig p then (s.error p .EINTR).setWaiting p none else s.waitRound p hasChild

/-! ### Ending and making processes -/

/-- `Exit` gives the children away. -/
def reparent (pid : ℤ) : List Slot → ProcessManager → ProcessManager
  | [], pm => pm
  | i :: is, pm =>
    if pid = (pm.process i).pPpid then
      let pm := pm.setProc i { pm.process i with pPpid := 1 }
      if (pm.process i).pStat = .SSTOP then reparent pid is (pm.setRun i) else reparent pid is pm
    else reparent pid is pm

/-- `Exit` wakes up the parent. -/
def wakeParent (pm : ProcessManager) (p : Slot) : ProcessManager :=
  match (List.finRange NPROC).find? fun i => (pm.process i).pPid = (pm.process p).pPpid with
  | some i => pm.wakeUpAll (.process i)
  | none => (pm.setProc p { pm.process p with pPpid := 1 }).wakeUpAll (.process 1)

/-- `Exit` from `SZOMB` to `Swtch`.  What comes before gives back files, text and memory. -/
def exit : System :=
  let pm := s.pm.setProc p { s.proc p with pStat := .SZOMB }
  let pm := wakeParent pm p
  { s with pm := reparent (pm.process p).pPid (List.finRange NPROC) pm }

/-- The number in a register. -/
def signed (w : UInt32) : ℤ := Words.int32 w.toNat

/-- `Clone`, on the entry of the child. -/
def clone (parent child : Process) (pid : ℤ) : Process :=
  { child with
    pStat := .SRUN, pFlag := SLOAD, pUid := parent.pUid, pTtyp := parent.pTtyp
    pNice := parent.pNice, pPid := pid, pPpid := parent.pPid, pPri := 0, pTime := 0 }

/-- The first free entry. -/
def freeSlot (pm : ProcessManager) : Option Slot :=
  (List.finRange NPROC).find? fun i => (pm.process i).pStat = .SNULL

/-- `NewProc`; the child gets a copy of the user area. -/
def newProc (child : Slot) : System :=
  let pid := signed s.pm.nextUniquePid
  let s' := s.setProc child (clone (s.proc p) (s.proc child) pid)
  let s' := { s' with pm := { s'.pm with nextUniquePid := s.pm.nextUniquePid + 1 } }
  ((s'.setUser child { s.user p with eax := 0 }).setWaiting child none).setSent child []

/-- `Fork`. -/
def fork : System :=
  match freeSlot s.pm with
  | none => s.error p .EAGAIN
  | some child => (s.newProc p child).ret p (signed s.pm.nextUniquePid)

end System

/-! ### Everything in any order -/

/-- What signals, wake-ups and the rest of the kernel leave as it is. -/
structure Kept (pm pm' : ProcessManager) : Prop where
  pPid : ∀ i, (pm'.process i).pPid = (pm.process i).pPid
  pPpid : ∀ i, (pm'.process i).pPpid = (pm.process i).pPpid
  free : ∀ i, (pm'.process i).pStat = .SNULL ↔ (pm.process i).pStat = .SNULL
  zombie : ∀ i, (pm'.process i).pStat = .SZOMB ↔ (pm.process i).pStat = .SZOMB
  /-- Nobody but `Wait` sleeps on the entry of the process itself. -/
  sleeps : ∀ i, (pm'.process i).IsSleepOn (.process i) → (pm.process i).IsSleepOn (.process i)
  nextUniquePid : pm'.nextUniquePid = pm.nextUniquePid

inductive Event
  | fork (p : Slot)
  | exit (p : Slot)
  | wait (p : Slot)
  /-- A process goes on in `Wait` after it has been woken up. -/
  | resume (p : Slot)
  | kill (p : Slot) (pid signal : ℤ)
  | signalTTy (pTTy : ℕ) (signal : ℤ)
  | interrupt
  | raise (p : Slot) (signal : ℤ)
  | ssig (p : Slot) (signalIndex : ℤ) (func : UInt32)
  | pSig (p : Slot)
  /-- Anything else. -/
  | other (s : System)

/-- The process can make a call: process 0 stays in `Sched`. -/
structure System.Active (s : System) (p : Slot) : Prop where
  ne_zero : p ≠ 0
  run : (s.proc p).pStat = .SRUN
  waiting : s.waiting p = none

theorem System.Active.of_test {s : System} {p : Slot}
    (h : p ≠ 0 ∧ (s.proc p).pStat = .SRUN ∧ s.waiting p = none) : s.Active p :=
  ⟨h.1, h.2.1, h.2.2⟩

/-- What else goes on in the kernel: sleeping and waking up, swapping, scheduling, and the calls
that change user areas. -/
structure System.Other (s s' : System) : Prop where
  kept : Kept s.pm s'.pm
  free : ∀ i, (s.proc i).pStat = .SNULL → s'.proc i = s.proc i
  pSig : ∀ i, (s'.proc i).pSig = (s.proc i).pSig
  waiting : s'.waiting = s.waiting
  sent : s'.sent = s.sent

namespace Event

def Enabled (s : System) : Event → Prop
  | fork p | exit p | wait p | kill p _ _ | raise p _ | ssig p _ _ => s.Active p
  | pSig p => s.Active p ∧ s.isSig p
  | resume p => (s.proc p).pStat = .SRUN ∧ s.waiting p ≠ none
  | signalTTy _ _ | interrupt => True
  | other s' => s.Other s'

def apply (s : System) : Event → System
  | fork p => s.fork p
  | exit p => s.exit p
  | wait p => s.wait p
  | resume p => s.resume p ((s.waiting p).getD false)
  | kill p pid signal => s.kill p pid signal
  | signalTTy pTTy signal => s.signalTTy pTTy signal
  | interrupt => s.interrupt
  | raise p signal => s.raise p signal
  | ssig p signalIndex func => s.ssig p signalIndex func
  | pSig p => s.pSig p
  | other s' => s'

end Event

/-- One event. -/
def Step (s : System) (e : Event) (s' : System) : Prop := e.Enabled s ∧ s' = e.apply s

/-- Process 0 has opened the terminal and made process 1, and stays in `Sched` from now on. -/
def started : System :=
  let zero := bootTable.process 0
  let boot : System :=
    { pm := bootTable.setProc 0 { zero with pTtyp := 1 }
      user := fun _ => ⟨0, fun _ => 0, .NOERROR, 0⟩
      waiting := fun _ => none
      sent := fun _ => [] }
  let s := boot.newProc 0 1
  s.setProc 0 { s.proc 0 with pTtyp := 0 }

theorem started_process (i : Slot) : started.pm.process i =
    if i = 0 then { bootTable.process 0 with pTtyp := 0 }
    else if i = 1 then
      { Process.empty with pPid := 1, pPpid := 0, pStat := .SRUN, pFlag := SLOAD, pTtyp := 1 }
    else .empty := by
  by_cases h0 : i = 0
  · subst h0
    rfl
  · by_cases h1 : i = 1
    · subst h1
      rfl
    · rw [if_neg h0, if_neg h1]
      simp [started, System.newProc, System.setProc, System.setUser, System.setWaiting, System.setSent,
        ProcessManager.setProc, bootTable, h0, h1]

/-! ### What is kept -/

namespace Kept

variable {pm pm' pm'' : ProcessManager} {i : Slot}

theorem refl (pm : ProcessManager) : Kept pm pm :=
  ⟨fun _ => rfl, fun _ => rfl, fun _ => .rfl, fun _ => .rfl, fun _ h => h, rfl⟩

theorem trans (h : Kept pm pm') (h' : Kept pm' pm'') : Kept pm pm'' where
  pPid i := (h'.pPid i).trans (h.pPid i)
  pPpid i := (h'.pPpid i).trans (h.pPpid i)
  free i := (h'.free i).trans (h.free i)
  zombie i := (h'.zombie i).trans (h.zombie i)
  sleeps i hi := h.sleeps i (h'.sleeps i hi)
  nextUniquePid := h'.nextUniquePid.trans h.nextUniquePid

/-- An entry that changes in other fields. -/
theorem setProc {e : Process} (hpid : e.pPid = (pm.process i).pPid)
    (hppid : e.pPpid = (pm.process i).pPpid) (hstat : e.pStat = (pm.process i).pStat)
    (hchan : e.pWchan = (pm.process i).pWchan) : Kept pm (pm.setProc i e) := by
  have hentry : ∀ j, ((pm.setProc i e).process j).pPid = (pm.process j).pPid ∧
      ((pm.setProc i e).process j).pPpid = (pm.process j).pPpid ∧
      ((pm.setProc i e).process j).pStat = (pm.process j).pStat ∧
      ((pm.setProc i e).process j).pWchan = (pm.process j).pWchan := by
    intro j
    by_cases hj : j = i
    · subst hj
      simp [hpid, hppid, hstat, hchan]
    · simp [pm.setProc_of_ne e hj]
  refine ⟨fun j => (hentry j).1, fun j => (hentry j).2.1, fun j => ?_, fun j => ?_, fun j hj => ?_,
    rfl⟩
  · rw [(hentry j).2.2.1]
  · rw [(hentry j).2.2.1]
  · rcases hj with ⟨hchan', hstat'⟩
    rw [(hentry j).2.2.1] at hstat'
    rw [(hentry j).2.2.2] at hchan'
    exact ⟨hchan', hstat'⟩

end Kept

theorem ProcessManager.Woken.kept {pm pm' : ProcessManager} (h : pm.Woken pm') : Kept pm pm' where
  pPid := h.pPid
  pPpid := h.pPpid
  free i := by
    rcases h.process i with heq | ⟨hrest, heq⟩ <;> rw [heq]
    rcases hrest with h | h | h <;> simp [h]
  zombie i := by
    rcases h.process i with heq | ⟨hrest, heq⟩ <;> rw [heq]
    rcases hrest with h | h | h <;> simp [h]
  sleeps i hi := by
    by_contra hnot
    exact h.not_isSleepOn hnot hi
  nextUniquePid := h.nextUniquePid

namespace ProcessManager

variable (pm : ProcessManager) (i : Slot) (signal : ℤ)

/-- The entry `PSignal` writes, before it wakes up the process. -/
def signalled (e : Process) (signal : ℤ) : Process :=
  { e with
    pSig := if e.pSig ≠ SIGKILL then signal else e.pSig
    pPri := if e.pPri > PUSER then PUSER else e.pPri }

theorem pSignal_eq : pm.pSignal i signal =
    if signal ≥ NSIG then pm
    else if (pm.process i).pStat = .SWAIT then
      (pm.setProc i (signalled (pm.process i) signal)).setRun i
    else pm.setProc i (signalled (pm.process i) signal) := by
  unfold pSignal signalled
  split
  · rfl
  · generalize pm.process i = e
    rcases e with ⟨_, _, _, _, _, pri, _, _, _, _, sig, _⟩
    by_cases hsig : sig = SIGKILL <;> by_cases hpri : pri > PUSER <;> simp [hsig, hpri]

/-- Everything `PSignal` does. -/
theorem pSignal_woken (h : ¬signal ≥ NSIG) :
    Woken (pm.setProc i (signalled (pm.process i) signal)) (pm.pSignal i signal) := by
  rw [pSignal_eq, if_neg h]
  split
  · next hwait => exact setRun_woken _ (.inl (by simpa [signalled] using hwait))
  · exact .refl _

theorem pSignal_kept : Kept pm (pm.pSignal i signal) := by
  by_cases h : signal ≥ NSIG
  · rw [pSignal_eq, if_pos h]
    exact .refl pm
  · have hset : Kept pm (pm.setProc i (signalled (pm.process i) signal)) := .setProc rfl rfl rfl rfl
    exact hset.trans (pm.pSignal_woken i signal h).kept

/-- What becomes of `p_sig`. -/
theorem pSignal_pSig (j : Slot) : ((pm.pSignal i signal).process j).pSig =
    if j = i ∧ signal < NSIG ∧ (pm.process i).pSig ≠ SIGKILL then signal
    else (pm.process j).pSig := by
  by_cases h : signal ≥ NSIG
  · rw [pSignal_eq, if_pos h, if_neg]
    rintro ⟨-, hlt, -⟩
    exact absurd h (not_le.mpr hlt)
  · rw [(pm.pSignal_woken i signal h).pSig, setProc_process]
    by_cases hj : j = i
    · subst hj
      simp [signalled, not_le.mp h]
    · simp [hj]

/-- What the tests of the senders look at stays. -/
theorem pSignal_address (j : Slot) :
    ((pm.pSignal i signal).process j).pTtyp = (pm.process j).pTtyp ∧
    ((pm.pSignal i signal).process j).pUid = (pm.process j).pUid := by
  by_cases h : signal ≥ NSIG
  · rw [pSignal_eq, if_pos h]
    exact ⟨rfl, rfl⟩
  · rw [(pm.pSignal_woken i signal h).entry j, setProc_process]
    by_cases hj : j = i
    · subst hj
      simp [signalled]
    · simp [hj]

end ProcessManager

namespace System

variable (s : System) (p : Slot) (signal : ℤ) (test : ProcessManager → Slot → Bool)

theorem send_kept (is : List Slot) : Kept s.pm (send test signal is s).pm := by
  induction is generalizing s with
  | nil => exact .refl _
  | cons i is ih =>
    rw [send]
    split
    · exact (s.pm.pSignal_kept i signal).trans (ih (s.pSignal signal i))
    · exact ih s

theorem send_waiting (is : List Slot) : (send test signal is s).waiting = s.waiting := by
  induction is generalizing s with
  | nil => rfl
  | cons i is ih =>
    rw [send]
    split
    · exact ih _
    · exact ih s

theorem ssig_kept (signalIndex : ℤ) (func : UInt32) :
    Kept s.pm (s.ssig p signalIndex func).pm ∧
    (s.ssig p signalIndex func).waiting = s.waiting := by
  unfold ssig
  split
  · exact ⟨.refl _, rfl⟩
  · dsimp only
    split
    · exact ⟨.setProc rfl rfl rfl rfl, rfl⟩
    · exact ⟨.refl _, rfl⟩

theorem pSig_kept : Kept s.pm (s.pSig p).pm ∧ (s.pSig p).waiting = s.waiting := by
  unfold pSig
  dsimp only
  split <;> exact ⟨.setProc rfl rfl rfl rfl, rfl⟩

theorem kill_kept (pid : ℤ) :
    Kept s.pm (s.kill p pid signal).pm ∧ (s.kill p pid signal).waiting = s.waiting := by
  unfold kill
  dsimp only
  split <;> exact ⟨s.send_kept _ _ _, s.send_waiting _ _ _⟩

end System

/-- The calls that make processes, end them, or wait for them. -/
def Event.OfFamily : Event → Prop
  | .fork _ | .exit _ | .wait _ | .resume _ => True
  | _ => False

/-- The other events change no parents and no zombies, and put nobody into `Wait`. -/
theorem Step.kept {s s' : System} {e : Event} (h : Step s e s') (he : ¬e.OfFamily) :
    Kept s.pm s'.pm ∧ s'.waiting = s.waiting := by
  rcases h with ⟨hen, rfl⟩
  cases e with
  | fork p | exit p | wait p | resume p => exact absurd trivial he
  | kill p pid signal => exact s.kill_kept p signal pid
  | signalTTy pTTy signal => exact ⟨s.send_kept _ _ _, s.send_waiting _ _ _⟩
  | interrupt => exact ⟨s.send_kept _ _ _, s.send_waiting _ _ _⟩
  | raise p signal => exact ⟨s.pm.pSignal_kept p signal, rfl⟩
  | ssig p signalIndex func => exact s.ssig_kept p signalIndex func
  | pSig p => exact s.pSig_kept p
  | other s' => exact ⟨hen.kept, hen.waiting⟩

end Proc
end UnixV6pp
