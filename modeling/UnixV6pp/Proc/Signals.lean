import UnixV6pp.Proc.Zombies

/-!
# Signals

`p_sig` holds one signal.  `PSignal` looks at one end of the range of numbers only, and `Kill`
and `Signal` go through all entries of the table, where a free entry still has the terminal of the
process that had it before.

## Main definitions

* `Proper` — every process has no signal, or one that was sent to it.
* `Event.Careful` — signals have numbers that are not negative, and are not sent to free entries.

## Main results

* `signals_run` — **in careful runs all signals are proper**; and in all steps `SIGKILL` stays until
  it is delivered, and only `Fork` makes a free entry ready to run.
* `not_proper` — a signal for a process that has gone goes to the next one in its entry, and a
  negative number is taken.
-/

namespace UnixV6pp
namespace Proc

open Proc.System

variable {s s' : System} {e : Event} {i p : Slot} {signal : ℤ}

/-- Every process has no signal, or one that was sent to it since it was made, and is neither
delivered nor cancelled. -/
def Proper (s : System) : Prop :=
  ∀ i, (s.proc i).pStat ≠ .SNULL →
    (s.proc i).pSig = 0 ∨ 1 ≤ (s.proc i).pSig ∧ (s.proc i).pSig < NSIG ∧ (s.proc i).pSig ∈ s.sent i

/-- The signal may be sent to the entry. -/
def Fit (s : System) (i : Slot) (signal : ℤ) : Prop :=
  signal < NSIG → 0 ≤ signal ∧ (signal = 0 ∨ (s.proc i).pStat ≠ .SNULL)

/-- The condition on a step: no negative number is sent, and no signal to a free entry. -/
def Event.Careful (s : System) : Event → Prop
  | .kill p pid signal => ∀ i, killTest p (s.user p).uUid pid s.pm i → Fit s i signal
  | .signalTTy pTTy signal => ∀ i, ttyTest pTTy s.pm i → Fit s i signal
  | .raise p signal => Fit s p signal
  | _ => True

/-- The invariant: free entries have no signal and no number. -/
structure Tidy (s : System) : Prop where
  proper : Proper s
  pSig : ∀ i, (s.proc i).pStat = .SNULL → (s.proc i).pSig = 0
  pPid : ∀ i, (s.proc i).pStat = .SNULL → (s.proc i).pPid = 0

/-! ### Sending -/

/-- A test that looks at what `PSignal` leaves alone. -/
def Stable (test : ProcessManager → Slot → Bool) : Prop :=
  ∀ pm j signal i, test (ProcessManager.pSignal pm j signal) i = test pm i

theorem stable_killTest (p : Slot) (uid pid : ℤ) : Stable (killTest p uid pid) := by
  intro pm j signal i
  unfold killTest
  rw [(pm.pSignal_kept j signal).pPid, (pm.pSignal_address j signal i).1,
    (pm.pSignal_address j signal i).2, (pm.pSignal_address j signal p).1]

theorem stable_ttyTest (pTTy : ℕ) : Stable (ttyTest pTTy) := by
  intro pm j signal i
  unfold ttyTest
  rw [(pm.pSignal_address j signal i).1]

theorem stable_keyTest : Stable keyTest := by
  intro pm j signal i
  unfold keyTest
  rw [(pm.pSignal_kept j signal).pPid]

theorem Tidy.pSignal (hs : Tidy s) (hfit : Fit s i signal) : Tidy (s.pSignal signal i) := by
  have hkept : Kept s.pm (s.pSignal signal i).pm := s.pm.pSignal_kept i signal
  have hsig : ∀ j, ((s.pSignal signal i).proc j).pSig =
      if j = i ∧ signal < NSIG ∧ (s.proc i).pSig ≠ SIGKILL then signal else (s.proc j).pSig :=
    s.pm.pSignal_pSig i signal
  have hsent : ∀ j, (s.pSignal signal i).sent j =
      if j = i then signal :: s.sent i else s.sent j := Function.update_apply _ _ _
  refine ⟨fun j hj => ?_, fun j hj => ?_, fun j hj => ?_⟩
  · have hlive : (s.proc j).pStat ≠ .SNULL := (hkept.free j).not.mp hj
    rw [hsig, hsent]
    split
    · next h =>
      rcases h with ⟨rfl, hlt, -⟩
      rcases (hfit hlt).1.eq_or_lt with hzero | hpos
      · exact .inl hzero.symm
      · exact .inr ⟨hpos, hlt, by simp⟩
    · rcases hs.proper j hlive with hzero | ⟨h1, h2, hmem⟩
      · exact .inl hzero
      · refine .inr ⟨h1, h2, ?_⟩
        split
        · next hji =>
          subst hji
          exact List.mem_cons_of_mem _ hmem
        · exact hmem
  · have hfree : (s.proc j).pStat = .SNULL := (hkept.free j).mp hj
    rw [hsig]
    split
    · next h =>
      rcases h with ⟨rfl, hlt, -⟩
      exact (hfit hlt).2.resolve_right (not_not.mpr hfree)
    · exact hs.pSig j hfree
  · rw [System.proc, hkept.pPid]
    exact hs.pPid j ((hkept.free j).mp hj)

theorem Tidy.send (hs : Tidy s) {test : ProcessManager → Slot → Bool} (ht : Stable test)
    (hfit : ∀ i, test s.pm i → Fit s i signal) (is : List Slot) : Tidy (send test signal is s) := by
  induction is generalizing s with
  | nil => exact hs
  | cons i is ih =>
    rw [System.send]
    split
    · next hi =>
      refine ih (hs.pSignal (hfit i hi)) fun j hj hlt => ?_
      have hj' : test s.pm j = true := (ht s.pm i signal j).symm.trans hj
      refine ⟨(hfit j hj' hlt).1, (hfit j hj' hlt).2.imp_right ?_⟩
      exact ((s.pm.pSignal_kept i signal).free j).not.mpr
    · exact ih hs hfit

/-! ### The other steps -/

/-- No signal is sent, and no entry is taken or given up. -/
structure Quiet (s s' : System) : Prop where
  pPid : ∀ i, (s'.proc i).pPid = (s.proc i).pPid
  pSig : ∀ i, (s'.proc i).pSig = (s.proc i).pSig
  free : ∀ i, (s'.proc i).pStat = .SNULL ↔ (s.proc i).pStat = .SNULL
  zombie : ∀ i, (s.proc i).pStat = .SZOMB → (s'.proc i).pStat = .SZOMB
  sent : s'.sent = s.sent

theorem Quiet.of_kept (h : Kept s.pm s'.pm) (hsig : ∀ i, (s'.proc i).pSig = (s.proc i).pSig)
    (hsent : s'.sent = s.sent) : Quiet s s' :=
  ⟨h.pPid, hsig, h.free, fun i => (h.zombie i).mpr, hsent⟩

theorem Quiet.of_eq (h : s'.pm = s.pm) (hsent : s'.sent = s.sent) : Quiet s s' :=
  .of_kept (h ▸ .refl _) (fun i => by rw [System.proc, h]) hsent

theorem Tidy.quiet (hs : Tidy s) (h : Quiet s s') : Tidy s' := by
  refine ⟨fun i hi => ?_, fun i hi => ?_, fun i hi => ?_⟩
  · rw [h.pSig, h.sent]
    exact hs.proper i ((h.free i).not.mp hi)
  · rw [h.pSig]
    exact hs.pSig i ((h.free i).mp hi)
  · rw [h.pPid]
    exact hs.pPid i ((h.free i).mp hi)

theorem exit_quiet (hp : (s.proc p).pStat ≠ .SNULL) : Quiet s (s.exit p) := by
  rcases exit_cases s p with ⟨pm, hleft, hwoken, -⟩
  have hkept := hwoken.kept
  refine ⟨fun i => ?_, fun i => ?_, fun i => ?_, fun i hi => ?_, rfl⟩
  · exact (hkept.pPid i).trans (hleft.pPid i)
  · exact (hwoken.pSig i).trans (hleft.pSig i)
  · rw [hkept.free, hleft.pStat]
    split
    · next h => simp [h, hp]
    · rfl
  · rw [hkept.zombie, hleft.pStat]
    split
    · rfl
    · exact hi

/-- An entry in use is given up, with its signal. -/
structure Reaped (s : System) (i : Slot) (s' : System) : Prop where
  zombie : (s.proc i).pStat = .SZOMB
  self : s'.proc i = reaped (s.proc i)
  other : ∀ j ≠ i, s'.proc j = s.proc j
  sent : ∀ j ≠ i, s'.sent j = s.sent j

theorem sleepWait_quiet (hp : (s.proc p).pStat = .SRUN) (h : Bool) : Quiet s (s.sleepWait p h) := by
  unfold System.sleepWait
  split
  · exact .of_eq rfl rfl
  · have hset : Quiet s ((s.setProc p { s.proc p with
        pWchan := .process p, pStat := .SWAIT, pPri := PWAIT }).setWaiting p (some h)) := by
      constructor
      case sent => rfl
      all_goals
        intro i
        by_cases hi : i = p
        · subst hi
          simp [System.proc, System.setProc, System.setWaiting, hp]
        · simp [System.proc, System.setProc, System.setWaiting, hi]
    dsimp only
    generalize (s.setProc p { s.proc p with
        pWchan := .process p, pStat := .SWAIT, pPri := PWAIT }).setWaiting p (some h) = s' at hset ⊢
    split
    · have hwoken := ProcessManager.wakeUpAll_woken { s'.pm with runIn := 0 } .runIn
      exact ⟨fun i => (hwoken.pPid i).trans (hset.pPid i),
        fun i => (hwoken.pSig i).trans (hset.pSig i),
        fun i => (hwoken.kept.free i).trans (hset.free i),
        fun i hi => (hwoken.kept.zombie i).mpr (hset.zombie i hi), hset.sent⟩
    · exact hset

theorem waitRound_cases (hp : (s.proc p).pStat = .SRUN) (h : Bool) :
    Quiet s (s.waitRound p h) ∨ ∃ i, Reaped s i (s.waitRound p h) := by
  unfold System.waitRound
  split
  · next i b hscan =>
    exact .inr ⟨i, (scanChildren_some hscan).2, s.pm.setProc_self _ _,
      fun j hj => s.pm.setProc_of_ne _ hj, fun j hj => Function.update_of_ne hj _ _⟩
  · exact .inl (sleepWait_quiet hp true)
  · exact .inl (.of_eq rfl rfl)

theorem Tidy.reaped (hs : Tidy s) (h : Reaped s i s') : Tidy s' := by
  refine ⟨fun j hj => ?_, fun j hj => ?_, fun j hj => ?_⟩ <;> by_cases hji : j = i
  · rw [hji, h.self] at hj
    exact absurd rfl hj
  · rw [h.other j hji] at hj ⊢
    rw [h.sent j hji]
    exact hs.proper j hj
  · rw [hji, h.self]
    rfl
  · rw [h.other j hji] at hj ⊢
    exact hs.pSig j hj
  · rw [hji, h.self]
    rfl
  · rw [h.other j hji] at hj ⊢
    exact hs.pPid j hj

theorem Tidy.fork (hs : Tidy s) : Tidy (s.fork p) := by
  rcases fork_cases s p with ⟨hpm, -, hsent⟩ | ⟨c, -, hc, hself, hother, -, hsent⟩
  · exact hs.quiet (.of_eq hpm hsent)
  · have hself' : (s.fork p).proc c = _ := hself
    have hother' : ∀ j ≠ c, (s.fork p).proc j = s.proc j := hother
    refine ⟨fun j hj => ?_, fun j hj => ?_, fun j hj => ?_⟩ <;> by_cases hjc : j = c
    · -- the entry had no signal when it was free
      rw [hjc, hself']
      exact .inl (hs.pSig c hc)
    · rw [hother' j hjc] at hj ⊢
      rw [hsent, Function.update_of_ne hjc]
      exact hs.proper j hj
    · rw [hjc, hself'] at hj
      cases hj
    · rw [hother' j hjc] at hj ⊢
      exact hs.pSig j hj
    · rw [hjc, hself'] at hj
      cases hj
    · rw [hother' j hjc] at hj ⊢
      exact hs.pPid j hj

/-- A process loses its signal; what else was sent to it stays. -/
structure Taken (s : System) (p : Slot) (s' : System) : Prop where
  pPid : ∀ i, (s'.proc i).pPid = (s.proc i).pPid
  pStat : ∀ i, (s'.proc i).pStat = (s.proc i).pStat
  self : (s'.proc p).pSig = 0
  other : ∀ i ≠ p, (s'.proc i).pSig = (s.proc i).pSig
  sent : ∀ i ≠ p, s'.sent i = s.sent i

theorem taken_clear (u : Slot → User) (l : List ℤ) :
    Taken s p ({ s with user := u }.setProc p { s.proc p with pSig := 0 } |>.setSent p l) := by
  constructor
  case self => simp [System.proc, System.setProc, System.setSent]
  case sent => exact fun i hi => Function.update_of_ne hi _ _
  all_goals
    intro i
    by_cases hi : i = p
    · subst hi
      simp [System.proc, System.setProc, System.setSent]
    · simp [System.proc, System.setProc, System.setSent, hi]

theorem Tidy.taken (hs : Tidy s) (h : Taken s p s') : Tidy s' := by
  refine ⟨fun i hi => ?_, fun i hi => ?_, fun i hi => ?_⟩
  · by_cases hip : i = p
    · rw [hip]
      exact .inl h.self
    · rw [h.pStat] at hi
      rw [h.other i hip, h.sent i hip]
      exact hs.proper i hi
  · by_cases hip : i = p
    · rw [hip]
      exact h.self
    · rw [h.other i hip]
      exact hs.pSig i (h.pStat i ▸ hi)
  · rw [h.pPid]
    exact hs.pPid i (h.pStat i ▸ hi)

theorem pSig_taken (s : System) (p : Slot) : Taken s p (s.pSig p) := by
  have htaken := taken_clear (s := s) (p := p) s.user
    ((s.sent p).filter (· ≠ (s.proc p).pSig))
  unfold System.pSig
  dsimp only
  split
  · exact ⟨htaken.pPid, htaken.pStat, htaken.self, htaken.other, htaken.sent⟩
  · exact htaken

/-- `Ssig` may cancel the signal it is about, which is not `SIGKILL`. -/
theorem ssig_cases (s : System) (p : Slot) (signalIndex : ℤ) (func : UInt32) :
    Quiet s (s.ssig p signalIndex func) ∨
    (s.proc p).pSig ≠ SIGKILL ∧ Taken s p (s.ssig p signalIndex func) := by
  unfold System.ssig
  split
  · exact .inl (.of_eq rfl rfl)
  · next hindex =>
    dsimp only
    split
    · next hsig =>
      refine .inr ⟨fun h => hindex (.inr (.inr ?_)), taken_clear _ _⟩
      exact hsig.symm.trans h
    · exact .inl (.of_eq rfl rfl)

theorem Tidy.step (hs : Tidy s) (hc : e.Careful s) (h : Step s e s') : Tidy s' := by
  rcases h with ⟨hen, rfl⟩
  cases e with
  | fork p => exact hs.fork
  | exit p => exact hs.quiet (exit_quiet (by simp [hen.run]))
  | wait p =>
    rcases waitRound_cases hen.run false with h | ⟨i, h⟩
    · exact hs.quiet h
    · exact hs.reaped h
  | resume p =>
    show Tidy (s.resume p _)
    unfold System.resume
    split
    · exact hs.quiet (.of_eq rfl rfl)
    · rcases waitRound_cases hen.1 ((s.waiting p).getD false) with h | ⟨i, h⟩
      · exact hs.quiet h
      · exact hs.reaped h
  | kill p pid signal =>
    have hsend := hs.send (stable_killTest p (s.user p).uUid pid) hc (List.finRange NPROC)
    show Tidy (s.kill p pid signal)
    unfold System.kill
    dsimp only
    split
    · exact hsend
    · exact hsend.quiet (.of_eq rfl rfl)
  | signalTTy pTTy signal => exact hs.send (stable_ttyTest pTTy) hc (List.finRange NPROC)
  | interrupt =>
    refine hs.send stable_keyTest (fun i hi _ => ⟨by decide, .inr fun hfree => ?_⟩) _
    -- free entries have the number 0
    unfold keyTest at hi
    rw [hs.pPid i hfree] at hi
    cases hi
  | raise p signal => exact hs.pSignal hc
  | ssig p signalIndex func =>
    rcases ssig_cases s p signalIndex func with h | ⟨-, h⟩
    · exact hs.quiet h
    · exact hs.taken h
  | pSig p => exact hs.taken (pSig_taken s p)
  | other s' => exact hs.quiet (.of_kept hen.kept hen.pSig hen.sent)

/-! ### `SIGKILL`, and entries that are not in use -/

/-- A signal that is pending stays until it is delivered, or its process is taken out of the
table. -/
def KillStays (s : System) (e : Event) (s' : System) : Prop :=
  ∀ i, (s.proc i).pSig = SIGKILL → (s'.proc i).pSig = SIGKILL ∨ e = .pSig i ∨
    (s.proc i).pStat = .SZOMB ∧ (s'.proc i).pStat = .SNULL

/-- Nothing but `Fork` makes a free entry or a zombie ready to run. -/
def NotRevived (s : System) (e : Event) (s' : System) : Prop :=
  ∀ i, (s.proc i).pStat = .SNULL ∨ (s.proc i).pStat = .SZOMB → (s'.proc i).pStat = .SRUN →
    ∃ p, e = .fork p ∧ freeSlot s.pm = some i

theorem pSignal_pSig (j : Slot) (h : (s.proc i).pSig = SIGKILL) :
    ((s.pSignal signal j).proc i).pSig = SIGKILL := by
  have hsig := s.pm.pSignal_pSig j signal i
  rw [if_neg] at hsig
  · exact hsig.trans h
  · rintro ⟨rfl, -, hne⟩
    exact hne h

theorem send_pSig (test : ProcessManager → Slot → Bool) (is : List Slot)
    (h : (s.proc i).pSig = SIGKILL) : ((send test signal is s).proc i).pSig = SIGKILL := by
  induction is generalizing s with
  | nil => exact h
  | cons j is ih =>
    rw [System.send]
    split
    · exact ih (pSignal_pSig j h)
    · exact ih h

theorem KillStays.of_pSig (h : ∀ i, (s.proc i).pSig = SIGKILL → (s'.proc i).pSig = SIGKILL) :
    KillStays s e s' := fun i hi => .inl (h i hi)

theorem Quiet.killStays (h : Quiet s s') : KillStays s e s' :=
  .of_pSig fun i hi => (h.pSig i).trans hi

theorem Reaped.killStays (h : Reaped s i s') : KillStays s e s' := by
  intro j hj
  by_cases hji : j = i
  · subst hji
    exact .inr (.inr ⟨h.zombie, by rw [h.self]; rfl⟩)
  · exact .inl (by rw [h.other j hji]; exact hj)

theorem Quiet.notRevived (h : Quiet s s') : NotRevived s e s' := by
  rintro i (hi | hi) hrun
  · rw [(h.free i).mpr hi] at hrun
    cases hrun
  · rw [h.zombie i hi] at hrun
    cases hrun

theorem Reaped.notRevived (h : Reaped s i s') : NotRevived s e s' := by
  intro j hj hrun
  by_cases hji : j = i
  · rw [hji, h.self] at hrun
    cases hrun
  · rw [h.other j hji] at hrun
    rcases hj with hj | hj <;> exact absurd (hj.symm.trans hrun) (by decide)

theorem Kept.notRevived (h : Kept s.pm s'.pm) : NotRevived s e s' := by
  rintro i (hi | hi) hrun
  · exact absurd ((h.free i).mpr hi |>.symm.trans hrun) (by decide)
  · exact absurd ((h.zombie i).mpr hi |>.symm.trans hrun) (by decide)

/-- The rounds of `Wait`. -/
theorem waitRound_stays (hp : (s.proc p).pStat = .SRUN) (b : Bool) :
    KillStays s e (s.waitRound p b) ∧ NotRevived s e (s.waitRound p b) := by
  rcases waitRound_cases hp b with h | ⟨i, h⟩ <;> exact ⟨h.killStays, h.notRevived⟩

theorem Step.stays (h : Step s e s') : KillStays s e s' ∧ NotRevived s e s' := by
  have hkept := h.kept
  rcases h with ⟨hen, rfl⟩
  cases e with
  | fork p =>
    show KillStays s _ (s.fork p) ∧ NotRevived s _ (s.fork p)
    rcases fork_cases s p with ⟨hpm, -, hsent⟩ | ⟨c, hfree, hc, hself, hother, -, -⟩
    · have hquiet : Quiet s (s.fork p) := .of_eq hpm hsent
      exact ⟨hquiet.killStays, hquiet.notRevived⟩
    · refine ⟨.of_pSig fun i hi => ?_, fun i hi hrun => ?_⟩
      · by_cases hic : i = c
        · subst hic
          rw [System.proc, hself]
          exact hi
        · rw [System.proc, hother i hic]
          exact hi
      · by_cases hic : i = c
        · exact ⟨p, rfl, hic ▸ hfree⟩
        · rw [System.proc, hother i hic] at hrun
          rcases hi with hi | hi <;> exact absurd (hi.symm.trans hrun) (by decide)
  | exit p =>
    have hquiet : Quiet s (s.exit p) := exit_quiet (by simp [hen.run])
    exact ⟨hquiet.killStays, hquiet.notRevived⟩
  | wait p => exact waitRound_stays hen.run false
  | resume p =>
    show KillStays s _ (s.resume p _) ∧ NotRevived s _ (s.resume p _)
    unfold System.resume
    split
    · have hquiet : Quiet s ((s.error p .EINTR).setWaiting p none) := .of_eq rfl rfl
      exact ⟨hquiet.killStays, hquiet.notRevived⟩
    · exact waitRound_stays hen.1 _
  | kill p pid signal =>
    refine ⟨.of_pSig fun i hi => ?_, (hkept nofun).1.notRevived⟩
    show ((s.kill p pid signal).proc i).pSig = SIGKILL
    unfold System.kill
    dsimp only
    split <;> exact send_pSig _ _ hi
  | signalTTy pTTy signal =>
    exact ⟨.of_pSig fun i hi => send_pSig _ _ hi, (hkept nofun).1.notRevived⟩
  | interrupt => exact ⟨.of_pSig fun i hi => send_pSig _ _ hi, (hkept nofun).1.notRevived⟩
  | raise p signal =>
    exact ⟨.of_pSig fun i hi => pSignal_pSig p hi, (hkept nofun).1.notRevived⟩
  | ssig p signalIndex func =>
    refine ⟨fun i hi => ?_, (hkept nofun).1.notRevived⟩
    rcases ssig_cases s p signalIndex func with h | ⟨hne, h⟩
    · exact h.killStays i hi
    · have hip : i ≠ p := fun h' => hne (h' ▸ hi)
      exact .inl ((h.other i hip).trans hi)
  | pSig p =>
    refine ⟨fun i hi => ?_, (hkept nofun).1.notRevived⟩
    by_cases hip : i = p
    · exact .inr (.inl (hip ▸ rfl))
    · exact .inl (((pSig_taken s p).other i hip).trans hi)
  | other s' => exact ⟨.of_pSig fun i hi => (hen.pSig i).trans hi, hen.kept.notRevived⟩

/-! ### Runs -/

theorem tidy_started : Tidy started := by
  have hcases : ∀ i, (started.proc i).pSig = 0 ∧
      ((started.proc i).pStat = .SNULL → (started.proc i).pPid = 0) := by
    intro i
    rw [System.proc, started_process]
    split
    · decide
    · split <;> decide
  exact ⟨fun i _ => .inl (hcases i).1, fun i _ => (hcases i).1, fun i => (hcases i).2⟩

/-- **Careful runs**: the signal of a process is one that was sent to it, `SIGKILL` stays until it
is delivered, and nobody makes a free entry or a zombie ready to run. -/
theorem signals_run (h : Runs Step (fun s e => e.Careful s) started s) :
    Proper s ∧ ∀ e s', Step s e s' → KillStays s e s' ∧ NotRevived s e s' := by
  have htidy : Tidy s := h.invariant (fun _ _ _ hs hc hstep => hs.step hc hstep) tidy_started
  exact ⟨htidy.proper, fun e s' hstep => hstep.stays⟩

/-- Process 1 makes process 2 and sends it a signal. -/
theorem signals_run_kill : Proper ((started.fork 1).kill 1 2 SIGINT) := by
  have hfork : Runs Step (fun s e => e.Careful s) started (started.fork 1) :=
    .single (l := .fork 1) trivial ⟨.of_test (by decide +kernel), rfl⟩
  have hfit : ∀ i, killTest 1 0 2 (started.fork 1).pm i = true →
      ((started.fork 1).proc i).pStat ≠ .SNULL := by decide +kernel
  have hkill : Runs Step (fun s e => e.Careful s) started ((started.fork 1).kill 1 2 SIGINT) :=
    hfork.tail (l := .kill 1 2 SIGINT) (fun i hi _ => ⟨by decide, .inr (hfit i hi)⟩)
      ⟨.of_test (by decide +kernel), rfl⟩
  exact (signals_run hkill).1

/-- Process 2 has ended and is out of the table; process 1 sends a signal to all on its terminal. -/
def signalLeft : System := (((started.fork 1).exit 2).wait 1).kill 1 0 SIGINT

/-- Process 1 sends a negative number to process 2. -/
def negative : System := (started.fork 1).kill 1 2 (-1)

/-- The next process starts with it; and a negative number is taken. -/
theorem not_proper :
    (∃ s, Runs Step (fun _ _ => True) started s ∧ ¬Proper s ∧
      (s.proc 2).pPid = 3 ∧ (s.proc 2).pSig = SIGINT ∧ s.sent 2 = []) ∧
    ∃ s, Runs Step (fun _ _ => True) started s ∧ ¬Proper s ∧ (s.proc 2).pSig = -1 := by
  have hfork : Runs Step (fun _ _ => True) started (started.fork 1) :=
    .single (l := .fork 1) trivial ⟨.of_test (by decide +kernel), rfl⟩
  have hleft : Runs Step (fun _ _ => True) started signalLeft :=
    .tail (l := .kill 1 0 SIGINT)
      (.tail (l := .wait 1)
        (hfork.tail (l := .exit 2) trivial ⟨.of_test (by decide +kernel), rfl⟩)
        trivial ⟨.of_test (by decide +kernel), rfl⟩)
      trivial ⟨.of_test (by decide +kernel), rfl⟩
  constructor
  · refine ⟨signalLeft.fork 1, hleft.tail (l := .fork 1) trivial
      ⟨.of_test (by decide +kernel), rfl⟩, fun h => ?_, by decide +kernel⟩
    exact absurd (h 2 (by decide +kernel)) (by decide +kernel)
  · have hkill : Runs Step (fun _ _ => True) started negative :=
      hfork.tail (l := .kill 1 2 (-1)) trivial ⟨.of_test (by decide +kernel), rfl⟩
    refine ⟨negative, hkill, fun h => ?_, by decide +kernel⟩
    exact absurd (h 2 (by decide +kernel)) (by decide +kernel)

end Proc
end UnixV6pp
