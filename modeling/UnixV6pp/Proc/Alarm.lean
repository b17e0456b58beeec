import UnixV6pp.Proc.ProcessCalls

/-!
# The alarm clock

All processes in `sleep` share the variable `tout`, the next second somebody is to be woken up
at.  `Clock` counts the second, allows interrupts, and compares then.

## Main definitions

* `State` — the system, the clock, and the calls of `Clock` that are in progress.
* `Event`, `Step` — clock ticks, the pieces of `Clock` and of `Sys_Sslep`, signals, and the rest
  of the kernel.
* `Event.Timely` — a tick inside `Clock` does not count a second before the comparison that would
  have woken somebody up.

## Main results

* `alarm_run` — **in timely runs nobody is left behind**, and no `sleep` returns early.
* `not_timely` — two seconds that were put off, one counted inside the other.
-/

namespace UnixV6pp
namespace Alarm

open Proc

/-- `Time::HZ`. -/
def HZ : ℤ := 120

/-- `Time::SCHMAG`. -/
def SCHMAG : ℤ := 20

def PSLEP : ℤ := 90

/-- What is left to do in a call of `Clock` that has counted a second and allowed interrupts. -/
inductive Frame
  /-- The comparison of `time` and `tout`. -/
  | test
  /-- `WakeUpAll(&tout)`, from some entry on. -/
  | wake (is : List Proc.Slot)
  /-- The priorities, and `RunIn`. -/
  | rest
deriving DecidableEq

/-- Where a process is in `Sys_Sslep`; every stage has the `wakeTime`. -/
inductive Stage
  /-- Before the test of the loop. -/
  | loop (wakeTime : UInt32)
  /-- `tout` is set; before `Sleep`. -/
  | going (wakeTime : UInt32)
  /-- In `Sleep`, asleep or woken up. -/
  | asleep (wakeTime : UInt32)
deriving DecidableEq

def Stage.wakeTime : Stage → UInt32
  | loop w | going w | asleep w => w

structure State where
  sys : System
  time : UInt32
  tout : UInt32
  lbolt : ℤ
  /-- The process whose user area is in place, and whether it is in user mode. -/
  current : Proc.Slot
  userMode : Bool
  /-- The calls of `Clock`, the innermost first. -/
  frames : List Frame
  stage : Proc.Slot → Option Stage

namespace State

variable (s : State) (p : Proc.Slot)

abbrev proc (i : Proc.Slot) : Proc.Process := s.sys.proc i

def setPm (pm : ProcessManager) : State := { s with sys := { s.sys with pm := pm } }

def setStage (st : Option Stage) : State := { s with stage := Function.update s.stage p st }

/-! ### `Clock` -/

/-- The head of `Clock`, on the entry of the current process. -/
def charge : State :=
  s.setPm (s.sys.pm.setProc s.current
    { s.proc s.current with pCpu := min ((s.proc s.current).pCpu + 1) 1024 })

/-- The second is put off: the tick has come in kernel mode, to a process that is not asleep. -/
def PutOff : Prop := (s.proc s.current).pStat = .SRUN ∧ (s.userMode = false ∨ s.frames ≠ [])

instance : Decidable s.PutOff := by unfold PutOff; infer_instance

/-- The tick counts a second. -/
def Counts : Prop := HZ ≤ s.lbolt + 1 ∧ ¬s.PutOff

instance : Decidable s.Counts := by unfold Counts; infer_instance

/-- `Clock` until it returns, or allows interrupts. -/
def tick : State :=
  if s.Counts then
    { s.charge with lbolt := s.lbolt + 1 - HZ, time := s.time + 1, frames := .test :: s.frames }
  else { s.charge with lbolt := s.lbolt + 1 }

/-- One entry, at the end of a second. -/
def aged (e : Proc.Process) : Proc.Process :=
  { e with pTime := min (e.pTime + 1) 127, pCpu := if e.pCpu > SCHMAG then e.pCpu - SCHMAG else 0 }

/-- `p_time`, `p_cpu` and `p_pri` of all processes. -/
def recompute : List Proc.Slot → ProcessManager → ProcessManager
  | [], pm => pm
  | i :: is, pm =>
    if (pm.process i).pStat ≠ .SNULL then
      let pm := pm.setProc i (aged (pm.process i))
      recompute is (if (pm.process i).pPri > PUSER then pm.setPri i else pm)
    else recompute is pm

/-- The end of a second. -/
def secondEnd (pm : ProcessManager) : ProcessManager :=
  let pm := recompute (List.finRange NPROC) pm
  if pm.runIn ≠ 0 then { pm with runIn := 0 }.wakeUpAll .runIn else pm

/-- The innermost call of `Clock` goes on. -/
def advance : State :=
  match s.frames with
  | [] => s
  | .test :: frames =>
    if s.time = s.tout then { s with frames := .wake (List.finRange NPROC) :: frames }
    else { s with frames := .rest :: frames }
  | .wake [] :: frames => { s with frames := .rest :: frames }
  | .wake (i :: is) :: frames =>
    let s := if (s.proc i).IsSleepOn .tout then s.setPm (s.sys.pm.setRun i) else s
    { s with frames := .wake is :: frames }
  | .rest :: frames => { s.setPm (secondEnd s.sys.pm) with frames := frames }

/-! ### `Sys_Sslep` -/

/-- `Sys_Sslep` until the loop. -/
def call (seconds : UInt32) : State := s.setStage p (some (.loop (s.time + seconds)))

/-- The test of the loop, and `tout`. -/
def loop (wakeTime : UInt32) : State :=
  if s.time < wakeTime then
    let s := s.setStage p (some (.going wakeTime))
    if s.tout ≤ s.time ∨ wakeTime < s.tout then { s with tout := wakeTime } else s
  else s.setStage p none

/-- The call is given up, because there is a signal. -/
def abort : State := { s.setStage p none with sys := s.sys.error p .EINTR }

/-- `Sleep` until `Swtch`. -/
def sleep (wakeTime : UInt32) : State :=
  if s.sys.isSig p then s.abort p
  else
    let s := s.setStage p (some (.asleep wakeTime))
    let pm := s.sys.pm.setProc p { s.proc p with pWchan := .tout, pStat := .SWAIT, pPri := PSLEP }
    if pm.runIn ≠ 0 then s.setPm ({ pm with runIn := 0 }.wakeUpAll .runIn) else s.setPm pm

/-- The rest of `Sleep`. -/
def resume (wakeTime : UInt32) : State :=
  if s.sys.isSig p then s.abort p else s.setStage p (some (.loop wakeTime))

end State

/-! ### Everything in any order -/

inductive Event
  | tick
  | advance
  | call (p : Proc.Slot) (seconds : UInt32)
  | loop (p : Proc.Slot) (wakeTime : UInt32)
  | sleep (p : Proc.Slot) (wakeTime : UInt32)
  | resume (p : Proc.Slot) (wakeTime : UInt32)
  /-- Another process gets the processor, or the process changes its mode. -/
  | dispatch (p : Proc.Slot) (userMode : Bool)
  | signal (p : Proc.Slot) (n : ℤ)
  /-- Anything else. -/
  | other (sys : System)

/-- The process runs in the kernel, and no call of `Clock` is in progress. -/
structure State.Runs (s : State) (p : Proc.Slot) : Prop where
  current : s.current = p
  kernel : s.userMode = false
  frames : s.frames = []
  run : (s.proc p).pStat = .SRUN

namespace Event

def Enabled (s : State) : Event → Prop
  | tick => True
  | advance => s.frames ≠ []
  | call p _ => s.Runs p ∧ s.stage p = none
  | loop p w => s.Runs p ∧ s.stage p = some (.loop w)
  | sleep p w => s.Runs p ∧ s.stage p = some (.going w)
  | resume p w => s.Runs p ∧ s.stage p = some (.asleep w)
  -- a process on its way to sleep is not interrupted by another one
  | dispatch p userMode => s.frames = [] ∧
      (∀ w, s.stage s.current ≠ some (.loop w) ∧ s.stage s.current ≠ some (.going w)) ∧
      (userMode = true → s.stage p = none)
  | signal _ _ => True
  -- nobody else sleeps on `tout`, or stops a process in `Sys_Sslep`
  | other sys => ∀ p, ((sys.proc p).IsSleepOn .tout → (s.proc p).IsSleepOn .tout) ∧
      (s.stage p ≠ none → (s.proc p).pStat = .SRUN → (sys.proc p).pStat = .SRUN)

def apply (s : State) : Event → State
  | tick => s.tick
  | advance => s.advance
  | call p seconds => s.call p seconds
  | loop p w => s.loop p w
  | sleep p w => s.sleep p w
  | resume p w => s.resume p w
  | dispatch p userMode => { s with current := p, userMode := userMode }
  | signal p n => s.setPm (s.sys.pm.pSignal p n)
  | other sys => { s with sys := sys }

/-- The condition on a step: the time does not come round; and no second is counted while the
comparison with `tout` is still to be made for the second before and somebody waits for it. -/
def Timely (s : State) : Event → Prop
  | tick => s.Counts → s.time ≠ 0xffffffff ∧
      (.test ∈ s.frames → s.time = s.tout → ∀ p, ¬(s.proc p).IsSleepOn .tout)
  | _ => True

end Event

/-- One event. -/
def Step (s : State) (e : Event) (s' : State) : Prop := e.Enabled s ∧ s' = e.apply s

/-- The clock when the first process is started. -/
def start (time : UInt32) : State where
  sys := started
  time := time
  tout := 0
  lbolt := 0
  current := 1
  userMode := true
  frames := []
  stage _ := none

/-! ### Who sleeps -/

/-- Nobody goes to sleep on a channel of the kernel, and whoever is ready to run stays so. -/
structure Calm (pm pm' : ProcessManager) : Prop where
  sleeps : ∀ p, (pm'.process p).IsSleepOn .tout → (pm.process p).IsSleepOn .tout
  runs : ∀ p, (pm.process p).pStat = .SRUN → (pm'.process p).pStat = .SRUN

namespace Calm

variable {pm pm' pm'' : ProcessManager} {i : Proc.Slot}

theorem refl (pm : ProcessManager) : Calm pm pm := ⟨fun _ h => h, fun _ h => h⟩

theorem trans (h : Calm pm pm') (h' : Calm pm' pm'') : Calm pm pm'' :=
  ⟨fun p hp => h.sleeps p (h'.sleeps p hp), fun p hp => h'.runs p (h.runs p hp)⟩

theorem of_woken (h : pm.Woken pm') : Calm pm pm' where
  sleeps p hp := by
    by_contra hnot
    exact h.not_isSleepOn hnot hp
  runs p hp := by rw [h.eq_of_stat (by simp [hp]), hp]

/-- An entry that changes in other fields. -/
theorem setProc {e : Proc.Process} (hstat : e.pStat = (pm.process i).pStat)
    (hchan : e.pWchan = (pm.process i).pWchan) : Calm pm (pm.setProc i e) := by
  constructor <;> intro p hp <;> by_cases hi : p = i
  · subst hi
    simpa [Proc.Process.IsSleepOn, hstat, hchan] using hp
  · simpa [hi] using hp
  · subst hi
    simpa [hstat] using hp
  · simpa [hi] using hp

theorem setPri : Calm pm (pm.setPri i) := by
  have hset : Calm pm (pm.setProc i { pm.process i with
      pPri := min ((pm.process i).pCpu.tdiv 16 + (PUSER + (pm.process i).pNice)) 255 }) :=
    setProc rfl rfl
  unfold ProcessManager.setPri
  dsimp only
  split
  · exact ⟨hset.sleeps, hset.runs⟩
  · exact hset

theorem recompute (is : List Proc.Slot) : Calm pm (State.recompute is pm) := by
  induction is generalizing pm with
  | nil => exact .refl pm
  | cons i is ih =>
    rw [State.recompute]
    split
    · have haged : Calm pm (pm.setProc i (State.aged (pm.process i))) := setProc rfl rfl
      dsimp only
      split
      · exact haged.trans (setPri.trans ih)
      · exact haged.trans ih
    · exact ih

theorem wakeRunIn : Calm pm ({ pm with runIn := 0 }.wakeUpAll .runIn) := by
  have hzero : Calm pm { pm with runIn := 0 } := ⟨fun _ h => h, fun _ h => h⟩
  exact hzero.trans (.of_woken (ProcessManager.wakeUpAll_woken _ _))

theorem secondEnd : Calm pm (State.secondEnd pm) := by
  unfold State.secondEnd
  dsimp only
  split
  · exact (recompute _).trans wakeRunIn
  · exact recompute _

theorem pSignal (n : ℤ) : Calm pm (pm.pSignal i n) := by
  by_cases h : n ≥ NSIG
  · rw [pm.pSignal_eq, if_pos h]
    exact .refl pm
  · have hset : Calm pm (pm.setProc i (ProcessManager.signalled (pm.process i) n)) :=
      setProc rfl rfl
    exact hset.trans (.of_woken (pm.pSignal_woken i n h))

end Calm

/-! ### The invariant -/

/-- Somebody asleep is going to be woken up: the time has not come, or a call of `Clock` is going
to make the comparison, or is on its way through the table. -/
def State.Awaited (s : State) (p : Proc.Slot) : Prop :=
  s.time < s.tout ∨ s.time = s.tout ∧ .test ∈ s.frames ∨ ∃ is, .wake is ∈ s.frames ∧ p ∈ is

structure Inv (s : State) : Prop where
  sleeper : ∀ p, (s.proc p).IsSleepOn .tout →
    ∃ w, s.stage p = some (.asleep w) ∧ s.tout ≤ w ∧ s.Awaited p
  onCpu : ∀ p w, s.stage p = some (.loop w) ∨ s.stage p = some (.going w) → s.Runs p
  going : ∀ p w, s.stage p = some (.going w) → s.time < s.tout ∧ s.tout ≤ w

section Steps

variable {s s' : State} {e : Event} {p q : Proc.Slot} {w : UInt32}

theorem State.Runs.not_asleep (h : s.Runs p) : ¬(s.proc p).IsSleepOn .tout :=
  fun hp => hp.pStat_ne.2.1 h.run

/-- Outside of `Clock` the time has not come. -/
theorem Inv.sleeper_lt (hs : Inv s) (hf : s.frames = []) (hp : (s.proc p).IsSleepOn .tout) :
    ∃ w, s.stage p = some (.asleep w) ∧ s.time < s.tout ∧ s.tout ≤ w := by
  rcases hs.sleeper p hp with ⟨w, hw, hle, hawait⟩
  refine ⟨w, hw, ?_, hle⟩
  rcases hawait with h | ⟨-, h⟩ | ⟨is, h, -⟩
  · exact h
  · simp [hf] at h
  · simp [hf] at h

/-- What changes nothing about the clock and the stages. -/
theorem Inv.calm (hs : Inv s) {pm : ProcessManager} (h : Calm s.sys.pm pm) : Inv (s.setPm pm) where
  sleeper p hp := hs.sleeper p (h.sleeps p hp)
  onCpu p w hw := by
    rcases hs.onCpu p w hw with ⟨hcur, hk, hf, hrun⟩
    exact ⟨hcur, hk, hf, h.runs p hrun⟩
  going p w hw := hs.going p w hw

theorem charge_calm : Calm s.sys.pm s.charge.sys.pm := .setProc rfl rfl

theorem toNat_succ (h : s.time ≠ 0xffffffff) : (s.time + 1).toNat = s.time.toNat + 1 := by
  have hlt := s.time.toNat_lt
  have hne : s.time.toNat ≠ 0xffffffff := fun heq => h (UInt32.toNat_inj.mp heq)
  rw [UInt32.toNat_add]
  have hone : (1 : UInt32).toNat = 1 := rfl
  omega

theorem Inv.tick (hs : Inv s) (ht : Event.tick.Timely s) : Inv s.tick := by
  have hcharge : Inv s.charge := hs.calm charge_calm
  unfold State.tick
  split
  · next hcounts =>
    rcases ht hcounts with ⟨hmax, htest⟩
    -- a process in the kernel puts the second off
    have hnone : ∀ p w, ¬(s.stage p = some (.loop w) ∨ s.stage p = some (.going w)) := by
      intro p w hw
      rcases hs.onCpu p w hw with ⟨hcur, hk, -, hrun⟩
      exact hcounts.2 ⟨by rw [hcur]; exact hrun, .inl hk⟩
    refine ⟨fun p hp => ?_, fun p w hw => absurd hw (hnone p w),
      fun p w hw => absurd (.inr hw) (hnone p w)⟩
    have hp' : (s.proc p).IsSleepOn .tout := charge_calm.sleeps p hp
    rcases hs.sleeper p hp' with ⟨w, hw, hle, hawait⟩
    refine ⟨w, hw, hle, ?_⟩
    rcases hawait with hlt | ⟨heq, hmem⟩ | ⟨is, hmem, his⟩
    · -- the next second is the one, or comes before it
      have hsucc := toNat_succ hmax
      rw [UInt32.lt_iff_toNat_lt] at hlt
      rcases Nat.eq_or_lt_of_le hlt with heq | hlt'
      · refine .inr (.inl ⟨UInt32.toNat_inj.mp (hsucc.trans heq), by simp⟩)
      · refine .inl ?_
        show s.time + 1 < s.tout
        rw [UInt32.lt_iff_toNat_lt, hsucc]
        exact hlt'
    · exact absurd hp' (htest hmem heq p)
    · exact .inr (.inr ⟨is, List.mem_cons_of_mem _ hmem, his⟩)
  · exact ⟨hcharge.sleeper, fun p w hw => by
      rcases hcharge.onCpu p w hw with ⟨hcur, hk, hf, hrun⟩
      exact ⟨hcur, hk, hf, hrun⟩, hcharge.going⟩

/-- `Clock` goes on: whoever was awaited is so still. -/
theorem Inv.setFrames (hs : Inv s) (hf : s.frames ≠ []) {frames : List Frame}
    (h : ∀ p, (s.proc p).IsSleepOn .tout → s.Awaited p → { s with frames := frames }.Awaited p) :
    Inv { s with frames := frames } where
  sleeper p hp := by
    rcases hs.sleeper p hp with ⟨w, hw, hle, hawait⟩
    exact ⟨w, hw, hle, h p hp hawait⟩
  onCpu p w hw := absurd (hs.onCpu p w hw).frames hf
  going p w hw := absurd (hs.onCpu p w (.inr hw)).frames hf

/-- The innermost call of `Clock` has done something that nobody asleep waits for. -/
theorem State.Awaited.next {f f' : Frame} {frames : List Frame} (h : s.Awaited p)
    (hf : s.frames = f :: frames) (htest : f = .test → s.time ≠ s.tout)
    (hwake : ∀ is, f = .wake is → p ∉ is) : { s with frames := f' :: frames }.Awaited p := by
  rcases h with hlt | ⟨heq, hmem⟩ | ⟨is, hmem, his⟩
  · exact .inl hlt
  · rw [hf] at hmem
    rcases List.mem_cons.mp hmem with h | hmem
    · exact absurd heq (htest h.symm)
    · exact .inr (.inl ⟨heq, List.mem_cons_of_mem _ hmem⟩)
  · rw [hf] at hmem
    rcases List.mem_cons.mp hmem with h | hmem
    · exact absurd his (hwake is h.symm)
    · exact .inr (.inr ⟨is, List.mem_cons_of_mem _ hmem, his⟩)

theorem Inv.advance (hs : Inv s) (hf : s.frames ≠ []) : Inv s.advance := by
  unfold State.advance
  split
  · exact hs
  · next frames hframes =>
    split
    · -- everybody is going to be woken up
      exact hs.setFrames hf fun p _ _ => .inr (.inr ⟨_, by simp, List.mem_finRange p⟩)
    · next hne => exact hs.setFrames hf fun p _ h => h.next hframes (fun _ => hne) nofun
  · next frames hframes =>
    refine hs.setFrames hf fun p _ h => h.next hframes nofun ?_
    intro is his
    cases his
    simp
  · next i is frames hframes =>
    -- the entry of the loop is not asleep afterwards, and the loop goes on
    have hwoken : Calm s.sys.pm (s.sys.pm.setRun i) ∨ ¬(s.proc i).IsSleepOn .tout := by
      by_cases hi : (s.proc i).IsSleepOn .tout
      · exact .inl (.of_woken (s.sys.pm.setRun_woken hi.resting))
      · exact .inr hi
    have hpast : ∀ p ≠ i, ∀ s' : State, s'.frames = s.frames → s'.Awaited p →
        { s' with frames := .wake is :: frames }.Awaited p := by
      intro p hp s' hs' h
      rcases h with hlt | ⟨heq, hmem⟩ | ⟨js, hmem, hjs⟩
      · exact .inl hlt
      · rw [hs', hframes] at hmem
        exact .inr (.inl ⟨heq, by simpa using hmem⟩)
      · rw [hs', hframes] at hmem
        rcases List.mem_cons.mp hmem with h | hmem
        · cases h
          exact .inr (.inr ⟨is, by simp, (List.mem_cons.mp hjs).resolve_left hp⟩)
        · exact .inr (.inr ⟨js, List.mem_cons_of_mem _ hmem, hjs⟩)
    dsimp only
    split
    · next hi =>
      have hcalm : Inv (s.setPm (s.sys.pm.setRun i)) :=
        hs.calm (.of_woken (s.sys.pm.setRun_woken hi.resting))
      refine hcalm.setFrames hf fun p hp h => hpast p (fun hpi => ?_) _ rfl h
      have hself : (s.sys.pm.setRun i).process i = (s.proc i).awake := s.sys.pm.setRun_self i
      have hp' : ((s.sys.pm.setRun i).process p).IsSleepOn .tout := hp
      rw [hpi, hself] at hp'
      exact Proc.Process.awake_not_isSleepOn _ _ hp'
    · next hi => exact hs.setFrames hf fun p hp h => hpast p (fun hpi => hi (hpi ▸ hp)) _ rfl h
  · next frames hframes =>
    have hend : Inv (s.setPm (State.secondEnd s.sys.pm)) := hs.calm .secondEnd
    refine hend.setFrames hf fun p _ h => ?_
    rcases h with hlt | ⟨heq, hmem⟩ | ⟨is, hmem, his⟩
    · exact .inl hlt
    · have hmem' : Frame.test ∈ s.frames := hmem
      rw [hframes] at hmem'
      exact .inr (.inl ⟨heq, by simpa using hmem'⟩)
    · have hmem' : Frame.wake is ∈ s.frames := hmem
      rw [hframes] at hmem'
      exact .inr (.inr ⟨is, by simpa using hmem', his⟩)

/-- Another stage of a process that is not asleep. -/
theorem Inv.setStage (hs : Inv s) (hr : s.Runs p) {st : Option Stage}
    (hgoing : ∀ w, st = some (.going w) → s.time < s.tout ∧ s.tout ≤ w) : Inv (s.setStage p st) := by
  have hstage : ∀ q ≠ p, (s.setStage p st).stage q = s.stage q :=
    fun q hq => Function.update_of_ne hq _ _
  have hself : (s.setStage p st).stage p = st := Function.update_self _ _ _
  refine ⟨fun q hq => ?_, fun q w hw => ?_, fun q w hw => ?_⟩
  · have hqp : q ≠ p := fun h => hr.not_asleep (h ▸ hq)
    rw [hstage q hqp]
    exact hs.sleeper q hq
  · by_cases hqp : q = p
    · rw [hqp]
      exact ⟨hr.current, hr.kernel, hr.frames, hr.run⟩
    · rw [hstage q hqp] at hw
      rcases hs.onCpu q w hw with ⟨hcur, hk, hf, hrun⟩
      exact ⟨hcur, hk, hf, hrun⟩
  · by_cases hqp : q = p
    · rw [hqp, hself] at hw
      exact hgoing w hw
    · rw [hstage q hqp] at hw
      exact hs.going q w hw

theorem Inv.abort (hs : Inv s) (hr : s.Runs p) : Inv (s.abort p) := by
  have hstage : Inv (s.setStage p none) := hs.setStage hr nofun
  exact ⟨hstage.sleeper, fun q w hw => by
    rcases hstage.onCpu q w hw with ⟨hcur, hk, hf, hrun⟩
    exact ⟨hcur, hk, hf, hrun⟩, hstage.going⟩

/-- The variable `tout` is set to the nearest time. -/
theorem Inv.loop (hs : Inv s) (hr : s.Runs p) (w : UInt32) : Inv (s.loop p w) := by
  unfold State.loop
  split
  · next hlt =>
    dsimp only
    split
    · next hset =>
      have hset' : s.tout ≤ s.time ∨ w < s.tout := hset
      have hstage : ∀ q ≠ p, (s.setStage p (some (.going w))).stage q = s.stage q :=
        fun q hq => Function.update_of_ne hq _ _
      refine ⟨fun q hq => ?_, fun q v hv => ?_, fun q v hv => ?_⟩
      · have hqp : q ≠ p := fun h => hr.not_asleep (h ▸ hq)
        rcases hs.sleeper_lt hr.frames hq with ⟨v, hv, hlt', hle⟩
        rcases hset' with h | h
        · exact absurd hlt' (UInt32.not_lt.mpr h)
        · exact ⟨v, (hstage q hqp).trans hv, UInt32.le_trans (UInt32.le_of_lt h) hle, .inl hlt⟩
      · have hrq : s.Runs q := by
          by_cases hqp : q = p
          · exact hqp ▸ hr
          · exact hs.onCpu q v (hstage q hqp ▸ hv)
        exact ⟨hrq.current, hrq.kernel, hrq.frames, hrq.run⟩
      · have hqp : q = p := by
          by_contra hqp
          have hrq := hs.onCpu q v (.inr ((hstage q hqp).symm.trans hv))
          exact hqp (hrq.current.symm.trans hr.current)
        have hv' : some (Stage.going w) = some (.going v) :=
          (Function.update_self p (some (Stage.going w)) s.stage).symm.trans (hqp ▸ hv)
        cases hv'
        exact ⟨hlt, UInt32.le_refl _⟩
    · next hset =>
      refine hs.setStage hr fun v hv => ?_
      cases hv
      have hset' : ¬(s.tout ≤ s.time ∨ w < s.tout) := hset
      exact ⟨UInt32.not_le.mp fun h => hset' (.inl h), UInt32.not_lt.mp fun h => hset' (.inr h)⟩
  · exact hs.setStage hr nofun

/-- The process goes to sleep. -/
theorem Inv.sleep (hs : Inv s) (hr : s.Runs p) (hw : s.stage p = some (.going w)) :
    Inv (s.sleep p w) := by
  unfold State.sleep
  split
  · exact hs.abort hr
  · have hasleep : Inv ((s.setStage p (some (.asleep w))).setPm (s.sys.pm.setProc p
        { s.proc p with pWchan := .tout, pStat := .SWAIT, pPri := PSLEP })) := by
      have hstage : ∀ q ≠ p, (s.setStage p (some (.asleep w))).stage q = s.stage q :=
        fun q hq => Function.update_of_ne hq _ _
      have hnone : ∀ q v, ¬((s.setStage p (some (.asleep w))).stage q = some (.loop v) ∨
          (s.setStage p (some (.asleep w))).stage q = some (.going v)) := by
        intro q v hv
        by_cases hqp : q = p
        · subst hqp
          simp [State.setStage] at hv
        · rw [hstage q hqp] at hv
          exact hqp ((hs.onCpu q v hv).current.symm.trans hr.current)
      refine ⟨fun q hq => ?_, fun q v hv => absurd hv (hnone q v),
        fun q v hv => absurd (.inr hv) (hnone q v)⟩
      rcases hs.going p w hw with ⟨hlt, hle⟩
      by_cases hqp : q = p
      · exact ⟨w, hqp ▸ Function.update_self _ _ _, hle, .inl hlt⟩
      · have hq' : (s.proc q).IsSleepOn .tout := by
          have hne := s.sys.pm.setProc_of_ne
            { s.proc p with pWchan := .tout, pStat := .SWAIT, pPri := PSLEP } hqp
          show (s.sys.pm.process q).IsSleepOn .tout
          rw [← hne]
          exact hq
        rcases hs.sleeper q hq' with ⟨v, hv, hle', -⟩
        exact ⟨v, (hstage q hqp).trans hv, hle', .inl hlt⟩
    dsimp only
    split
    · exact hasleep.calm .wakeRunIn
    · exact hasleep

theorem Inv.step (hs : Inv s) (ht : e.Timely s) (h : Step s e s') : Inv s' := by
  rcases h with ⟨hen, rfl⟩
  cases e with
  | tick => exact hs.tick ht
  | advance => exact hs.advance hen
  | call p seconds => exact hs.setStage hen.1 nofun
  | loop p w => exact hs.loop hen.1 w
  | sleep p w => exact hs.sleep hen.1 hen.2
  | resume p w =>
    show Inv (s.resume p w)
    unfold State.resume
    split
    · exact hs.abort hen.1
    · exact hs.setStage hen.1 nofun
  | dispatch p userMode =>
    rcases hen with ⟨-, hnone, -⟩
    have hno : ∀ q w, ¬(s.stage q = some (.loop w) ∨ s.stage q = some (.going w)) := by
      intro q w hw
      have hcur : s.current = q := (hs.onCpu q w hw).current
      rcases hw with hw | hw
      · exact (hnone w).1 (hcur ▸ hw)
      · exact (hnone w).2 (hcur ▸ hw)
    exact ⟨hs.sleeper, fun q w hw => absurd hw (hno q w), hs.going⟩
  | signal p n => exact hs.calm (.pSignal n)
  | other sys =>
    refine ⟨fun p hp => hs.sleeper p ((hen p).1 hp), fun p w hw => ?_, hs.going⟩
    rcases hs.onCpu p w hw with ⟨hcur, hk, hf, hrun⟩
    have hstage : s.stage p ≠ none := by
      intro h
      rcases hw with hw | hw <;> cases h.symm.trans hw
    exact ⟨hcur, hk, hf, (hen p).2 hstage hrun⟩

/-- `Clock` has no access to the stages. -/
theorem tick_stage : s.tick.stage = s.stage := by
  unfold State.tick
  split <;> rfl

theorem advance_stage : s.advance.stage = s.stage := by
  unfold State.advance
  split
  · rfl
  · split <;> rfl
  · rfl
  · dsimp only
    split <;> rfl
  · rfl

/-- A process leaves `Sys_Sslep` because of a signal, or when its time has come. -/
theorem Step.leaves (h : Step s e s') {st : Stage} (hst : s.stage p = some st)
    (hnone : s'.stage p = none) :
    s.sys.isSig p ∧ (∃ w, e = .sleep p w ∨ e = .resume p w) ∨ st.wakeTime ≤ s.time := by
  rcases h with ⟨hen, rfl⟩
  have hother : ∀ q st', p ≠ q → (s.setStage q st').stage p = s.stage p :=
    fun q st' hne => Function.update_of_ne hne _ _
  -- the step is one of this process
  have hstays : (e.apply s).stage p ≠ s.stage p := by
    rw [hnone, hst]
    nofun
  cases e with
  | tick => exact absurd (congrFun tick_stage p) hstays
  | advance => exact absurd (congrFun advance_stage p) hstays
  | call q seconds =>
    by_cases hpq : p = q
    · subst hpq
      cases hst.symm.trans hen.2
    · exact absurd (hother q _ hpq) hstays
  | loop q w =>
    by_cases hpq : p = q
    · subst hpq
      cases hst.symm.trans hen.2
      refine .inr (UInt32.not_lt.mp fun hlt => ?_)
      have hlt' : s.time < w := hlt
      have hgoing : (s.loop p w).stage p = some (.going w) := by
        unfold State.loop
        rw [if_pos hlt']
        dsimp only
        split <;> exact Function.update_self _ _ _
      cases hgoing.symm.trans hnone
    · refine absurd ?_ hstays
      show (s.loop q w).stage p = s.stage p
      unfold State.loop
      split
      · dsimp only
        split <;> exact hother q _ hpq
      · exact hother q _ hpq
  | sleep q w =>
    by_cases hpq : p = q
    · subst hpq
      refine .inl ⟨?_, w, .inl rfl⟩
      by_contra hsig
      have hasleep : (s.sleep p w).stage p = some (.asleep w) := by
        unfold State.sleep
        rw [if_neg hsig]
        dsimp only
        split <;> exact Function.update_self _ _ _
      cases hasleep.symm.trans hnone
    · refine absurd ?_ hstays
      show (s.sleep q w).stage p = s.stage p
      unfold State.sleep
      split
      · exact hother q _ hpq
      · dsimp only
        split <;> exact hother q _ hpq
  | resume q w =>
    by_cases hpq : p = q
    · subst hpq
      refine .inl ⟨?_, w, .inr rfl⟩
      by_contra hsig
      have hloop : (s.resume p w).stage p = some (.loop w) := by
        unfold State.resume
        rw [if_neg hsig]
        exact Function.update_self _ _ _
      cases hloop.symm.trans hnone
    · refine absurd ?_ hstays
      show (s.resume q w).stage p = s.stage p
      unfold State.resume
      split <;> exact hother q _ hpq
  | dispatch q userMode => exact absurd rfl hstays
  | signal q n => exact absurd rfl hstays
  | other sys => exact absurd rfl hstays

end Steps

/-! ### Runs -/

theorem inv_start (time : UInt32) : Inv (start time) := by
  refine ⟨fun p hp => ?_, fun p w hw => ?_, fun p w hw => ?_⟩
  · have hp' : (started.pm.process p).IsSleepOn .tout := hp
    have hcases : started.pm.process p = _ := started_process p
    rw [hcases] at hp'
    split at hp'
    · exact absurd hp' (by decide)
    · split at hp' <;> exact absurd hp' (by decide)
  · rcases hw with hw | hw <;> cases hw
  · cases hw

/-- **Timely runs**: when no call of `Clock` is in progress, everybody asleep on `tout` is in
`Sys_Sslep`, and will be woken up not later than its `wakeTime`; and `sleep` returns then, or
because of a signal. -/
theorem alarm_run {time : UInt32} {s : State}
    (h : Runs Step (fun s e => e.Timely s) (start time) s) :
    (s.frames = [] → ∀ p, (s.proc p).IsSleepOn .tout →
      ∃ w, s.stage p = some (.asleep w) ∧ s.time < s.tout ∧ s.tout ≤ w) ∧
    (∀ e s' p st, Step s e s' → s.stage p = some st → s'.stage p = none →
      s.sys.isSig p ∧ (∃ w, e = .sleep p w ∨ e = .resume p w) ∨ st.wakeTime ≤ s.time) := by
  have hinv : Inv s := h.invariant (fun _ _ _ hs ht hstep => hs.step ht hstep) (inv_start time)
  exact ⟨fun hf p hp => hinv.sleeper_lt hf hp, fun e s' p st hstep => hstep.leaves⟩

/-- Process 1 goes to sleep for a second. -/
def oneSleeper : State := (((({ start 0 with userMode := false }.call 1 1).loop 1 1).sleep 1 1))

theorem runs_oneSleeper : Runs Step (fun s e => e.Timely s) (start 0) oneSleeper := by
  have hkernel : Runs Step (fun s e => e.Timely s) (start 0) { start 0 with userMode := false } :=
    .single (l := .dispatch 1 false) trivial ⟨⟨rfl, fun _ => ⟨nofun, nofun⟩, nofun⟩, rfl⟩
  exact .tail (l := .sleep 1 1)
    (.tail (l := .loop 1 1)
      (hkernel.tail (l := .call 1 1) trivial ⟨⟨⟨rfl, rfl, rfl, rfl⟩, rfl⟩, rfl⟩)
      trivial ⟨⟨⟨rfl, rfl, rfl, rfl⟩, rfl⟩, rfl⟩)
    trivial ⟨⟨⟨rfl, rfl, rfl, rfl⟩, rfl⟩, rfl⟩

theorem alarm_run_oneSleeper :
    ∃ w, oneSleeper.stage 1 = some (.asleep w) ∧ oneSleeper.time < oneSleeper.tout ∧
      oneSleeper.tout ≤ w :=
  (alarm_run runs_oneSleeper).1 (by decide +kernel) 1 (by decide +kernel)

/-- So many ticks. -/
def ticks : ℕ → State → State
  | 0, s => s
  | n + 1, s => (ticks n s).tick

theorem runs_ticks (n : ℕ) (s : State) : Runs Step (fun _ _ => True) s (ticks n s) := by
  induction n with
  | zero => exact .refl s
  | succ n ih => exact ih.tail (l := .tick) trivial ⟨trivial, rfl⟩

/-- Process 0 sleeps in `Sched`. -/
def resting : System :=
  started.setProc 0 { started.proc 0 with pStat := .SSLEEP, pWchan := .runOut }

/-- Process 1 stays in the kernel for almost two seconds, which are put off. -/
def busy : State := ticks 239 { start 0 with sys := resting, userMode := false }

/-- It goes to sleep for a second, and process 0 waits for an interrupt. -/
def idle : State :=
  { ((busy.call 1 1).loop 1 1).sleep 1 1 with current := 0, userMode := false }

/-- Two ticks follow, the second inside the call of `Clock` for the first. -/
def late : State := (ticks 2 idle).advance.advance.advance.advance

/-- Process 1 sleeps on, after its second. -/
theorem not_timely : ∃ s, Runs Step (fun _ _ => True) (start 0) s ∧ s.frames = [] ∧
    (s.proc 1).IsSleepOn .tout ∧ s.stage 1 = some (.asleep 1) ∧ ¬s.time < s.tout := by
  have hresting : ∀ p, (¬(resting.proc p).IsSleepOn .tout) ∧
      ((start 0).stage p ≠ none → ((start 0).proc p).pStat = .SRUN →
        (resting.proc p).pStat = .SRUN) := by
    refine fun p => ⟨?_, fun h => absurd rfl h⟩
    revert p
    decide +kernel
  have hstart : Runs Step (fun _ _ => True) (start 0)
      { start 0 with sys := resting, userMode := false } :=
    .tail (l := .dispatch 1 false)
      (.single (l := .other resting) trivial
        ⟨fun p => ⟨fun h => absurd h (hresting p).1, (hresting p).2⟩, rfl⟩)
      trivial ⟨⟨rfl, fun _ => ⟨nofun, nofun⟩, nofun⟩, rfl⟩
  have hruns : ∀ s : State, s.current = 1 ∧ s.userMode = false ∧ s.frames = [] ∧
      (s.proc 1).pStat = .SRUN → s.Runs 1 := fun _ h => ⟨h.1, h.2.1, h.2.2.1, h.2.2.2⟩
  have hasleep : Runs Step (fun _ _ => True) (start 0) (((busy.call 1 1).loop 1 1).sleep 1 1) :=
    .tail (l := .sleep 1 1)
      (.tail (l := .loop 1 1)
        (.tail (l := .call 1 1) (hstart.trans (runs_ticks 239 _)) trivial
          ⟨⟨hruns _ (by decide +kernel), by decide +kernel⟩, rfl⟩)
        trivial ⟨⟨hruns _ (by decide +kernel), by decide +kernel⟩, rfl⟩)
      trivial ⟨⟨hruns _ (by decide +kernel), by decide +kernel⟩, rfl⟩
  have hidle : Runs Step (fun _ _ => True) (start 0) (ticks 2 idle) := by
    refine (hasleep.tail (l := .dispatch 0 false) trivial ⟨⟨?_, fun w => ?_, nofun⟩, rfl⟩).trans
      (runs_ticks 2 idle)
    · decide +kernel
    · have hstage : (((busy.call 1 1).loop 1 1).sleep 1 1).stage
          (((busy.call 1 1).loop 1 1).sleep 1 1).current = some (.asleep 1) := by decide +kernel
      rw [hstage]
      exact ⟨nofun, nofun⟩
  have hadvance : ∀ s : State, s.frames ≠ [] → Event.advance.Enabled s := fun _ h => h
  have hlate : Runs Step (fun _ _ => True) (start 0) late :=
    .tail (l := .advance)
      (.tail (l := .advance)
        (.tail (l := .advance)
          (hidle.tail (l := .advance) trivial ⟨hadvance _ (by decide +kernel), rfl⟩)
          trivial ⟨hadvance _ (by decide +kernel), rfl⟩)
        trivial ⟨hadvance _ (by decide +kernel), rfl⟩)
      trivial ⟨hadvance _ (by decide +kernel), rfl⟩
  exact ⟨late, hlate, by decide +kernel⟩

end Alarm
end UnixV6pp
