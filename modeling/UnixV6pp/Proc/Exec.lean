import UnixV6pp.Lib.Schedule
import UnixV6pp.Proc.PageTable
import Mathlib.Data.Fintype.Card

/-!
# Starting another program

`Exec` looks at the file first, and only then gives up the old image; at most `NEXEC`
processes may be in it at a time.  There are five ways to return before the old image is
gone, and not all of them leave everything as it was.

* `Header`, `ExeFile` — what `Exec` learns about the file.
* `exec` — `ProcessManager::Exec`.
* `execMachine` — processes that call it.
* `exec_run` — **what holds in all runs with harmless files.**
-/

namespace UnixV6pp
namespace Execution

open Threads Code Paging

/-- `ProcessManager::NEXEC`. -/
def NEXEC : ℕ := 10

inductive ErrCode
  | ENOENT
  | EIO
  | EACCES
  | ENFILE
  | ENOTDIR
  | ENOMEM
  deriving DecidableEq

/-- The fields of the headers that `HeaderLoad` uses. -/
structure Header where
  signature : ℕ
  baseOfCode : ℕ
  baseOfData : ℕ
  imageBase : ℕ
  sizeOfStackCommit : ℕ
  /-- `VirtualAddress` of the section `IDATA_SECTION_IDX`. -/
  idataVirtualAddress : ℕ

/-- What `Exec` finds out about the file. -/
structure ExeFile where
  /-- `Access` denies `IEXEC`. -/
  refused : Bool
  /-- The `IFMT` bits are zero. -/
  regular : Bool
  header : Header

namespace Header

/-- `HeaderLoad` succeeds. -/
def valid (h : Header) : Bool := h.signature = 0x00004550

/-- The segments according to `HeaderLoad`. -/
def descriptor (h : Header) : Descriptor where
  mTextStartAddress := (h.baseOfCode + h.imageBase) % 2 ^ 32
  mTextSize := (h.baseOfData + 2 ^ 32 - h.baseOfCode) % 2 ^ 32
  mDataStartAddress := (h.baseOfData + h.imageBase) % 2 ^ 32
  mDataSize := (h.idataVirtualAddress + 2 ^ 32 - h.baseOfData) % 2 ^ 32
  mStackSize := h.sizeOfStackCommit

/-- The program is too large. -/
def tooLarge (h : Header) : Bool :=
  !accepts h.descriptor.mTextStartAddress h.descriptor.mTextSize h.descriptor.mDataSize
    h.descriptor.mStackSize

end Header

/-- The file is refused with an error, or it is a program that fits. -/
def ExeFile.harmless (f : ExeFile) : Bool :=
  f.refused || (f.regular && f.header.valid && !f.header.tooLarge)

/-- What a process has that `Exec` exchanges: its descriptor, and the page table, the image and the
signal table. -/
structure Program (κ : Type) where
  md : Descriptor
  rest : κ

structure Process (κ : Type) where
  program : Program κ
  uError : Option ErrCode
  /-- What it had when it called `Exec`. -/
  before : Program κ
  /-- It has not called `Exec` yet, or `Exec` has released the old image. -/
  released : Bool
  /-- It has increased `ExeCnt` and has not returned since. -/
  between : Bool

structure System (ι κ : Type) where
  exeCnt : ℕ
  /-- Who sleeps on `ExeCnt`. -/
  asleep : ι → Bool
  proc : ι → Process κ

/-- What a process does. -/
inductive Action (κ : Type)
  | enter
  | setError (e : ErrCode)
  | sleepOnExeCnt
  | exeInc
  /-- `ExeCnt` is decreased, and those who wait are woken up if it has been too large. -/
  | exeDec
  | setDescriptor (md : Descriptor)
  | release
  | load (program : Program κ)
  | leave

namespace System

variable {ι κ : Type} [DecidableEq ι] (s : System ι κ) (p : ι)

def setProc (e : Process κ) : System ι κ := { s with proc := Function.update s.proc p e }

def exec : Action κ → System ι κ
  | .enter =>
    s.setProc p { s.proc p with uError := none, before := (s.proc p).program, released := false }
  | .setError e => s.setProc p { s.proc p with uError := some e }
  | .sleepOnExeCnt => { s with asleep := Function.update s.asleep p true }
  | .exeInc => { s with exeCnt := s.exeCnt + 1 }.setProc p { s.proc p with between := true }
  | .exeDec =>
    { s with
      asleep := if NEXEC ≤ s.exeCnt then fun _ => false else s.asleep
      exeCnt := s.exeCnt - 1 }.setProc p { s.proc p with between := false }
  | .setDescriptor md =>
    s.setProc p { s.proc p with program := { (s.proc p).program with md := md } }
  | .release => s.setProc p { s.proc p with released := true }
  | .load program => s.setProc p { s.proc p with program := program }
  | .leave => s.setProc p { s.proc p with between := false }

end System

variable {ι κ : Type} [DecidableEq ι]

/-- `ProcessManager::Exec` once `NameI` has found the file; `program` is what the process has
afterwards. -/
def execFile (f : ExeFile) (program : Program κ) : Code (System ι κ) (Action κ) Unit := do
  waitWhile fun s => if NEXEC ≤ s.exeCnt then some .sleepOnExeCnt else none
  perform .exeInc
  if f.refused || !f.regular then do
    whenever f.refused (perform (.setError .EACCES))
    sleep
    perform .exeDec
  else do
    sleep
    -- `ExeCnt` stays as it is when `HeaderLoad` fails, and when the program is too large
    if !f.header.valid then sleep
    else do
      perform (.setDescriptor f.header.descriptor)
      if f.header.tooLarge then do
        sleep
        perform (.setError .ENOMEM)
      else do
        perform .release
        sleep
        perform (.load program)
        sleep
        perform .exeDec

/-- `ProcessManager::Exec`: `file` is what `NameI` leads to, or its error; the disk is waited for
wherever it may be. -/
def exec (file : Except ErrCode ExeFile) (program : Program κ) :
    Code (System ι κ) (Action κ) Unit :=
  perform .enter >>= fun _ => sleep >>= fun _ =>
    (match file with
      | .error e => perform (.setError e)
      | .ok f => execFile f program) >>= fun _ => perform .leave

/-- What processes do: call `Exec`, or anything else that changes what they have. -/
inductive Call (κ : Type)
  | exec (file : Except ErrCode ExeFile) (program : Program κ)
  | other (program : Program κ)

def Call.code : Call κ → Code (System ι κ) (Action κ) Unit
  | .exec file program => Execution.exec file program
  | .other program => do
    perform .release
    perform (.load program)

/-- The calls with a harmless file. -/
def Call.harmless : Call κ → Bool
  | .exec (.ok f) _ => f.harmless
  | _ => true

/-- The processes; `all` says whether they may use all files. -/
def execMachine (all : Bool) : Machine ι (System ι κ) (Action κ) (Call κ) where
  exec p a s := s.exec p a
  runnable p s := !s.asleep p
  may _ t _ := all || t.harmless
  codeOf _ t := t.code

/-- Nobody is in `Exec`. -/
def start (program : ι → Program κ) : Config ι (System ι κ) (Action κ) :=
  ⟨⟨0, fun _ => false, fun p => ⟨program p, none, program p, true, false⟩⟩, fun _ => .ret ()⟩

/-! ### What a process keeps -/

section

variable [Fintype ι]

/-- `ExeCnt` counts the processes in `Exec`, and who waits has a reason to. -/
structure Counted (s : System ι κ) : Prop where
  count : s.exeCnt = (Finset.univ.filter fun p => (s.proc p).between = true).card
  waits : ∀ p, s.asleep p = true → NEXEC ≤ s.exeCnt

/-- If the last `Exec` has not released the old image, it has failed and changed nothing. -/
def Unharmed (e : Process κ) : Prop :=
  e.released = false → e.uError.isSome = true ∧ e.program = e.before

/-- What a process leaves when it is not in a call. -/
def Quiet (e : Process κ) : Prop := e.between = false ∧ Unharmed e

/-- What a piece of `Exec` does. -/
abbrev ESpec (p : ι) (g : Process κ) (P : Code (System ι κ) (Action κ) Unit)
    (Q : Unit → Process κ → Prop) : Prop :=
  Spec (fun a s => System.exec s p a) (fun _ _ => True) Counted (fun s => s.proc p) g P Q

variable {s : System ι κ} {p : ι} {g e : Process κ}

omit [Fintype ι] in
theorem proc_setProc_self : (s.setProc p e).proc p = e := Function.update_self ..

theorem Counted.setProc (h : Counted s) (he : e.between = (s.proc p).between) :
    Counted (s.setProc p e) := by
  have hbetween : ∀ q, ((s.setProc p e).proc q).between = (s.proc q).between := by
    intro q
    change (Function.update s.proc p e q).between = _
    rw [Function.update_apply]
    split
    · next hq => rw [he, hq]
    · rfl
  constructor
  · simp only [hbetween]
    exact h.count
  · exact h.waits

/-- An action that changes only the process itself, and does not enter or leave. -/
theorem own_spec {a : Action κ} {f : Process κ → Process κ}
    (ha : ∀ s : System ι κ, s.exec p a = s.setProc p (f (s.proc p)))
    (hf : (f g).between = g.between) :
    ESpec p g (perform a) fun _ g' => g' = f g := by
  apply Spec.perform
  rintro s hs rfl -
  rw [ha]
  exact ⟨hs.setProc hf, proc_setProc_self⟩

theorem setError_spec (err : ErrCode) :
    ESpec p g (perform (.setError err)) fun _ g' => g' = { g with uError := some err } :=
  own_spec (f := fun e => { e with uError := some err }) (fun _ => rfl) rfl

/-- The processes in `Exec`. -/
def inExec (s : System ι κ) : Finset ι := Finset.univ.filter fun q => (s.proc q).between = true

omit [DecidableEq ι] in
theorem mem_inExec {q : ι} : q ∈ inExec s ↔ (s.proc q).between = true := by
  unfold inExec
  rw [Finset.mem_filter]
  exact and_iff_right (Finset.mem_univ q)

/-- A process enters. -/
theorem exeInc_spec (hg : g.between = false) :
    ESpec p g (perform .exeInc) fun _ g' => g' = { g with between := true } := by
  apply Spec.perform
  rintro s hs rfl -
  have hin : inExec (s.exec p .exeInc) = insert p (inExec s) := by
    ext q
    rw [mem_inExec, Finset.mem_insert, mem_inExec]
    change (Function.update s.proc p _ q).between = true ↔ _
    rw [Function.update_apply]
    split
    · next hq => exact ⟨fun _ => .inl hq, fun _ => rfl⟩
    · next hq => exact ⟨.inr, fun h => h.resolve_left hq⟩
  have hnot : p ∉ inExec s := by
    rw [mem_inExec, hg]
    exact Bool.false_ne_true
  refine ⟨⟨?_, fun q hq => ?_⟩, proc_setProc_self⟩
  · change s.exeCnt + 1 = (inExec _).card
    rw [hin, Finset.card_insert_of_notMem hnot, hs.count]
    rfl
  · have := hs.waits q hq
    exact Nat.le_succ_of_le this

/-- A process leaves. -/
theorem exeDec_spec (hg : g.between = true) :
    ESpec p g (perform .exeDec) fun _ g' => g' = { g with between := false } := by
  apply Spec.perform
  rintro s hs rfl -
  have hin : inExec (s.exec p .exeDec) = (inExec s).erase p := by
    ext q
    rw [mem_inExec, Finset.mem_erase, mem_inExec]
    change (Function.update s.proc p _ q).between = true ↔ _
    rw [Function.update_apply]
    split
    · next hq => exact ⟨fun h => absurd h Bool.false_ne_true, fun h => absurd hq h.1⟩
    · next hq => exact ⟨fun h => ⟨hq, h⟩, fun h => h.2⟩
  refine ⟨⟨?_, fun q hq => ?_⟩, proc_setProc_self⟩
  · change s.exeCnt - 1 = (inExec _).card
    rw [hin, Finset.card_erase_of_mem (mem_inExec.2 hg), hs.count]
    rfl
  · -- those who wait have been woken up
    change (if NEXEC ≤ s.exeCnt then fun _ => false else s.asleep) q = true at hq
    split at hq
    · cases hq
    · next hlt => exact absurd (hs.waits q hq) hlt

/-- A process waits until there is room. -/
theorem wait_spec : ESpec p g
    (waitWhile fun s => if NEXEC ≤ s.exeCnt then some .sleepOnExeCnt else none)
    fun _ g' => g' = g := by
  intro s hs hg
  refine ⟨hs, fun s' hs' hg' => ⟨fun a ha _ => ?_, fun _ => ⟨hs', hg'.trans hg⟩⟩⟩
  dsimp only at ha
  split at ha
  · next hfull =>
    cases ha
    refine ⟨⟨hs'.count, fun q hq => ?_⟩, rfl⟩
    change Function.update s'.asleep p true q = true at hq
    rw [Function.update_apply] at hq
    split at hq
    · exact hfull
    · exact hs'.waits q hq
  · cases ha

/-- A process that is not in `Exec` returns. -/
theorem leave_spec (hg : Quiet g) : ESpec p g (perform .leave) fun _ g' => Quiet g' := by
  refine (own_spec (f := fun e => { e with between := false }) (fun _ => rfl) hg.1.symm).mono ?_
  rintro _ g' rfl
  exact ⟨rfl, hg.2⟩

/-- A refused file. -/
theorem refused_spec {g : Process κ} (hg : g.between = true) (hbefore : g.program = g.before) :
    ESpec p g (do
      whenever true (perform (.setError .EACCES))
      sleep
      perform .exeDec) fun _ g' => Quiet g' := by
  apply Spec.bind (setError_spec .EACCES)
  rintro _ g₁ rfl
  apply Spec.bind Spec.sleep
  rintro _ g₂ rfl
  refine (exeDec_spec (by exact hg)).mono ?_
  rintro _ g' rfl
  exact ⟨rfl, fun _ => ⟨rfl, hbefore⟩⟩

/-- A program that fits. -/
theorem load_spec {g : Process κ} (hg : g.between = true) (program : Program κ) :
    ESpec p g (do
      perform .release
      sleep
      perform (.load program)
      sleep
      perform .exeDec) fun _ g' => Quiet g' := by
  apply Spec.bind (own_spec (f := fun e => { e with released := true }) (fun _ => rfl) rfl)
  rintro _ g₁ rfl
  apply Spec.bind Spec.sleep
  rintro _ g₂ rfl
  apply Spec.bind (own_spec (f := fun e => { e with program := program }) (fun _ => rfl) rfl)
  rintro _ g₃ rfl
  apply Spec.bind Spec.sleep
  rintro _ g₄ rfl
  refine (exeDec_spec (by exact hg)).mono ?_
  rintro _ g' rfl
  exact ⟨rfl, fun h => absurd h.symm Bool.false_ne_true⟩

/-- A file that has been found. -/
theorem execFile_spec {g : Process κ} (hg : g.between = false) (hbefore : g.program = g.before)
    {f : ExeFile} {program : Program κ} (hf : f.harmless = true) :
    ESpec p g (execFile f program) fun _ g' => Quiet g' := by
  apply Spec.bind wait_spec
  rintro _ g₁ rfl
  apply Spec.bind (exeInc_spec hg)
  rintro _ g₂ rfl
  cases hrefused : f.refused with
  | true => exact refused_spec rfl hbefore
  | false =>
    have hsafe : f.regular = true ∧ f.header.valid = true ∧ f.header.tooLarge = false := by
      simpa [ExeFile.harmless, hrefused, and_assoc] using hf
    simp only [hsafe, Bool.not_true, Bool.or_false, Bool.false_eq_true, if_false]
    apply Spec.bind Spec.sleep
    rintro _ g₃ rfl
    apply Spec.bind (own_spec
      (f := fun e => { e with program := { e.program with md := f.header.descriptor } })
      (fun _ => rfl) rfl)
    rintro _ g₄ rfl
    exact load_spec rfl program

/-- **A harmless file**: `Exec` fails with an error and without a change, or it gives up the old
image. -/
theorem exec_spec (hg : Quiet g) {file : Except ErrCode ExeFile} {program : Program κ}
    (hfile : (Call.exec file program).harmless = true) :
    ESpec p g (exec file program) fun _ g' => Quiet g' := by
  unfold exec
  apply Spec.bind (own_spec
    (f := fun e => { e with uError := none, before := e.program, released := false })
    (fun _ => rfl) rfl)
  rintro _ g₁ rfl
  apply Spec.bind Spec.sleep
  rintro _ g₂ rfl
  cases file with
  | error err =>
    refine (setError_spec err).bind fun _ g₃ hg₃ => leave_spec ?_
    subst hg₃
    exact ⟨hg.1, fun _ => ⟨rfl, rfl⟩⟩
  | ok f => exact (execFile_spec (by exact hg.1) (by rfl) hfile).bind fun _ _ hq => leave_spec hq

theorem call_spec (hg : Quiet g) {t : Call κ} (ht : t.harmless = true) :
    ESpec p g t.code fun _ g' => Quiet g' := by
  cases t with
  | exec file program => exact exec_spec hg ht
  | other program =>
    apply Spec.bind (own_spec (f := fun e => { e with released := true }) (fun _ => rfl) rfl)
    rintro _ g₁ rfl
    refine (own_spec (f := fun e => { e with program := program }) (fun _ => rfl) rfl).mono ?_
    rintro _ g' rfl
    exact ⟨hg.1, fun h => absurd h.symm Bool.false_ne_true⟩

omit [Fintype ι] in
/-- What a process does changes no other process. -/
theorem exec_frame {q : ι} (a : Action κ) (s : System ι κ) (hpq : p ≠ q) :
    (s.exec p a).proc q = s.proc q := by
  cases a <;> first | rfl | exact Function.update_of_ne hpq.symm _ _

/-! ### Runs -/

/-- **A failed `Exec` is harmless** in all runs with harmless files: `ExeCnt` is the number of
processes that are in `Exec`, nobody waits for room that there is, and a process whose `Exec`
has returned before it released the old image has an error and what it had before. -/
theorem exec_run {program : ι → Program κ} {c : Config ι (System ι κ) (Action κ)}
    (hrun : (execMachine false).Runs (fun _ _ _ => True) (start program) c) :
    Counted c.state ∧ ∀ p, c.code p = .ret () → Unharmed (c.state.proc p) := by
  have hstart : Counted (start program).state := by
    constructor
    · symm
      apply Finset.card_eq_zero.2
      exact Finset.filter_eq_empty_iff.2 fun _ _ h => absurd h Bool.false_ne_true
    · exact fun _ h => absurd h Bool.false_ne_true
  have hquiet : ∀ p, Quiet ((start program).state.proc p) :=
    fun p => ⟨rfl, fun h => absurd h.symm Bool.false_ne_true⟩
  have hcalls : ∀ (p : ι) (s : System ι κ) P, Counted s →
      (execMachine false).runnable p s = true → (execMachine false).Calls p s P →
      Quiet (s.proc p) → wp (fun a s => System.exec s p a) (fun _ _ => True) Counted
        (fun s => s.proc p) P (fun _ s => Counted s ∧ Quiet (s.proc p)) s := by
    rintro p s P hs - ⟨t, hmay, rfl⟩ hq
    exact call_spec hq hmay s hs rfl
  have hrule := run_invariant (fun p q a s hpq => exec_frame a s hpq) hcalls (fun _ => rfl)
    hstart hquiet hrun
  exact ⟨hrule.1, fun p hp => (hrule.2 p hp).2⟩

end

/-- Nobody has a program yet. -/
def noProgram : Program Unit := ⟨⟨0, 0, 0, 0, 0⟩, ()⟩

def twoProcesses : Config (Fin 2) (System (Fin 2) Unit) (Action Unit) := start fun _ => noProgram

/-- A file that may not be executed. -/
def refusedFile : ExeFile := ⟨true, true, ⟨0, 0, 0, 0, 0, 0⟩⟩

/-- A file that may be executed but is not a program. -/
def noPEFile : ExeFile := ⟨false, true, ⟨0, 0, 0, 0, 0, 0⟩⟩

/-- Two processes; the first is refused, and keeps what it had. -/
theorem exec_run_refused : ∃ c, (execMachine false).Runs (fun _ _ _ => True)
    twoProcesses c ∧ (c.state.proc 0).uError = some .EACCES ∧
      (Counted c.state ∧ ∀ p, c.code p = .ret () → Unharmed (c.state.proc p)) := by
  obtain ⟨c, hrun, herror⟩ := (execMachine false).exists_run_of_play (fun _ _ _ => true)
    (fun _ _ _ _ => trivial)
    [.call 0 (.exec (.ok refusedFile) noProgram) [], .run 0 [], .run 0 []]
    (fun c => (c.state.proc 0).uError = some .EACCES)
    (c := twoProcesses) (by decide +kernel)
  exact ⟨c, hrun, herror, exec_run hrun⟩

/-- A file that is not a program leaves no error, and `ExeCnt` counts the process for ever. -/
theorem exec_noPE : ∃ c, (execMachine true).Runs (fun _ _ _ => True)
    twoProcesses c ∧ ¬Counted c.state ∧
      ∃ p, c.code p = .ret () ∧ ¬Unharmed (c.state.proc p) := by
  obtain ⟨c, hrun, hret, hcount, hout, hkept, herror⟩ :=
    (execMachine true).exists_run_of_play (fun _ _ _ => true)
    (fun _ _ _ _ => trivial)
    [.call 0 (.exec (.ok noPEFile) noProgram) [], .run 0 [], .run 0 [], .run 0 []]
    (fun c => returned (c.code 0) = true ∧ c.state.exeCnt = 1 ∧
      (∀ p, (c.state.proc p).between = false) ∧ (c.state.proc 0).released = false ∧
        (c.state.proc 0).uError = none)
    (c := twoProcesses) (by decide +kernel)
  refine ⟨c, hrun, fun h => ?_, 0, eq_ret_of_returned hret, fun h => ?_⟩
  · have hnone : inExec c.state = ∅ := Finset.filter_eq_empty_iff.2 fun p _ hp => by
      rw [hout p] at hp
      cases hp
    have hone : 1 = (inExec c.state).card := hcount.symm.trans h.count
    rw [hnone] at hone
    cases hone
  · have herr := (h hkept).1
    rw [herror] at herr
    cases herr

end Execution
end UnixV6pp
