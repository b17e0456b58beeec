import UnixV6pp.Mm.PageManager
import UnixV6pp.Proc.ProcessTable

/-!
# Which process the swapper swaps out

`Sched` picks the process that has been ready to run on the swap area for the longest time.  If
there is no memory for it, somebody else is to go: who sleeps at low priority or is stopped, or
else, if the process has waited for three seconds, who has been in memory for the longest time.

The flags of a process are tested by `p_flag & (SSYS | SLOCK | SLOAD) == SLOAD`, where the
comparison is made before the conjunction.

## Main definitions

* `Swapping.sched` — one round of `Sched`, up to the swap or the sleep that it leads to.
* `Expected` — what the comments in it say.

## Main results

* `Swapping.sched_of_full` — **without memory nobody is swapped out.**
* `Swapping.sched_iff` — when that is as it should be.
-/

namespace UnixV6pp
namespace Proc

open Allocator

/-- `SSYS`: the image belongs to the system. -/
def SSYS : UInt32 := 0x2

/-- `SLOCK`: the image is not to be swapped out for the moment. -/
def SLOCK : UInt32 := 0x4

/-- What is needed here of a shared text. -/
structure SharedText where
  xCcount : ℕ
  xSize : UInt32

/-- The table with what `Sched` needs to know of the images, and the map of the memory. -/
structure Swapping where
  process : Slot → Process
  pSize : Slot → UInt32
  pTextp : Slot → Option SharedText
  memory : MapState

/-- What a round of `Sched` leads to. -/
inductive Verdict
  /-- Sleep until somebody is to be swapped in. -/
  | runOut
  /-- Sleep until somebody may be swapped out. -/
  | runIn
  | swapIn (i : Slot) (desAddress : UInt32)
  | swapOut (i : Slot)
deriving DecidableEq, Repr

namespace Swapping

variable (s : Swapping) {c i : Slot}

/-! ### The code -/

/-- The process is ready to run, and swapped out. -/
def Waiting (i : Slot) : Prop := (s.process i).pStat = .SRUN ∧ (s.process i).pFlag &&& SLOAD = 0

instance (i : Slot) : Decidable (s.Waiting i) := instDecidableAnd

/-- The first loop: `pSelected` and `seconds`. -/
def pick : List Slot → Option Slot → ℤ → Option Slot × ℤ
  | [], pSelected, seconds => (pSelected, seconds)
  | i :: is, pSelected, seconds =>
    if s.Waiting i ∧ (s.process i).pTime > seconds then pick is (some i) (s.process i).pTime
    else pick is pSelected seconds

/-- The memory that a process needs, with its text if that is not there either. -/
def size (i : Slot) : UInt32 :=
  match s.pTextp i with
  | some text => if text.xCcount = 0 then s.pSize i + text.xSize else s.pSize i
  | none => s.pSize i

/-- The test of the flags and the state. -/
def test (i : Slot) : Bool :=
  -- `==` binds more tightly than `&`
  (s.process i).pFlag &&& (if SSYS ||| SLOCK ||| SLOAD = SLOAD then 1 else 0) ≠ 0 ∧
    ((s.process i).pStat = .SWAIT ∨ (s.process i).pStat = .SSTOP)

/-- The third loop, which compares the time of `pSelected`. -/
def pickOut : List Slot → Slot → ℤ → Slot × ℤ
  | [], pSelected, seconds => (pSelected, seconds)
  | i :: is, pSelected, seconds =>
    if s.test i ∧ (s.process pSelected).pTime > seconds then pickOut is i (s.process i).pTime
    else pickOut is pSelected seconds

/-- One round of `Sched`. -/
def sched : Verdict :=
  match s.pick (List.finRange NPROC) none (-1) with
  | (none, _) => .runOut
  | (some pSelected, seconds) =>
    let desAddress := (s.memory.allocMemory (s.size pSelected)).1
    if desAddress ≠ 0 then .swapIn pSelected desAddress
    else if (List.finRange NPROC).any s.test then .swapOut pSelected
    else if seconds < 3 then .runIn
    else
      let (pSelected, seconds) := s.pickOut (List.finRange NPROC) pSelected (-1)
      if seconds < 2 then .runIn else .swapOut pSelected

/-! ### What the comments say -/

/-- A process that may be swapped out. -/
def Eligible (i : Slot) : Prop :=
  (s.process i).pFlag &&& SLOAD ≠ 0 ∧ (s.process i).pFlag &&& SSYS = 0 ∧
    (s.process i).pFlag &&& SLOCK = 0

/-- It sleeps at low priority, or is stopped. -/
def Easy (i : Slot) : Prop :=
  s.Eligible i ∧ ((s.process i).pStat = .SWAIT ∨ (s.process i).pStat = .SSTOP)

/-- It sleeps at high priority, or is ready to run. -/
def Hard (i : Slot) : Prop :=
  s.Eligible i ∧ ((s.process i).pStat = .SSLEEP ∨ (s.process i).pStat = .SRUN)

/-- There is no memory for `c`. -/
structure Expected (c : Slot) (v : Verdict) : Prop where
  eligible : ∀ i, v = .swapOut i → s.Eligible i ∧ i ≠ c
  easy : (∃ i, s.Easy i) → ∃ i, v = .swapOut i ∧ s.Easy i
  hard : (∀ i, ¬s.Easy i) → 3 ≤ (s.process c).pTime → (∃ i, s.Hard i ∧ 2 ≤ (s.process i).pTime) →
    ∃ i, v = .swapOut i ∧ s.Hard i ∧ 2 ≤ (s.process i).pTime ∧
      ∀ j, s.Hard j → (s.process j).pTime ≤ (s.process i).pTime

/-- Nobody is to be swapped out for `c`. -/
def Nobody (c : Slot) : Prop :=
  (∀ i, ¬s.Easy i) ∧
    ((s.process c).pTime < 3 ∨ ∀ i, s.Hard i → (s.process i).pTime < 2)

/-! ### What the code does -/

variable {s}

/-- No process passes the test. -/
theorem test_eq_false (i : Slot) : s.test i = false := by
  have hmask : ¬SSYS ||| SLOCK ||| SLOAD = SLOAD := by decide
  unfold test
  rw [if_neg hmask]
  simp

theorem pickOut_eq (is : List Slot) (seconds : ℤ) : s.pickOut is c seconds = (c, seconds) := by
  induction is with
  | nil => rfl
  | cons i is ih =>
    unfold pickOut
    rw [test_eq_false, if_neg (by simp)]
    exact ih

/-- **Without memory nobody is swapped out.** -/
theorem sched_of_full {seconds : ℤ}
    (hpick : s.pick (List.finRange NPROC) none (-1) = (some c, seconds))
    (hfull : (s.memory.allocMemory (s.size c)).1 = 0) : s.sched = .runIn := by
  have hany : (List.finRange NPROC).any s.test = false := by
    simp [List.any_eq_false, test_eq_false]
  unfold sched
  rw [hpick]
  dsimp only
  rw [hfull, hany, pickOut_eq]
  simp

/-- Nothing else can be expected of a round that only sleeps. -/
theorem expected_runIn : s.Expected c .runIn ↔ s.Nobody c := by
  constructor
  · intro h
    have heasy : ∀ i, ¬s.Easy i := by
      intro i hi
      obtain ⟨j, hj, -⟩ := h.easy ⟨i, hi⟩
      cases hj
    refine ⟨heasy, ?_⟩
    by_cases hc : (s.process c).pTime < 3
    · exact .inl hc
    · right
      intro i hi
      by_contra hlt
      obtain ⟨j, hj, -⟩ := h.hard heasy (Int.not_lt.mp hc) ⟨i, hi, Int.not_lt.mp hlt⟩
      cases hj
  · rintro ⟨heasy, hhard⟩
    refine ⟨nofun, fun ⟨i, hi⟩ => absurd hi (heasy i), fun _ hc ⟨i, hi, htime⟩ => ?_⟩
    rcases hhard with hlt | hall
    · omega
    · have := hall i hi
      omega

/-- **The swapper does what the comments say exactly if they say that nobody is to be swapped
out.** -/
theorem sched_iff {seconds : ℤ}
    (hpick : s.pick (List.finRange NPROC) none (-1) = (some c, seconds))
    (hfull : (s.memory.allocMemory (s.size c)).1 = 0) : s.Expected c s.sched ↔ s.Nobody c := by
  rw [sched_of_full hpick hfull]
  exact expected_runIn

/-- One process to be swapped in, one that is in memory in some state, and no free memory. -/
def crowded (pStat : ProcessState) : Swapping where
  process i :=
    if i = 0 then { Process.empty with pStat := .SRUN, pTime := 5 }
    else if i = 1 then { Process.empty with pStat := pStat, pFlag := SLOAD, pTime := 9 }
    else Process.empty
  pSize _ := 4096
  pTextp _ := none
  memory := ⟨[⟨0, 0⟩], 0⟩

theorem pick_crowded (pStat : ProcessState) :
    (crowded pStat).pick (List.finRange NPROC) none (-1) = (some 0, 5) := by
  cases pStat <;> decide +kernel

theorem full_crowded (pStat : ProcessState) :
    ((crowded pStat).memory.allocMemory ((crowded pStat).size 0)).1 = 0 := by
  change ((⟨[⟨0, 0⟩], 0⟩ : MapState).allocMemory 4096).1 = 0
  decide +kernel

/-- A zombie is not swapped out. -/
theorem expected_crowded : (crowded .SZOMB).Expected 0 (crowded .SZOMB).sched := by
  refine (sched_iff (pick_crowded _) (full_crowded _)).mpr ?_
  have hstat : ∀ i, ((crowded .SZOMB).process i).pStat ≠ .SWAIT ∧
      ((crowded .SZOMB).process i).pStat ≠ .SSTOP ∧
      ((crowded .SZOMB).process i).pStat ≠ .SSLEEP ∧
      (((crowded .SZOMB).process i).pStat = .SRUN → ((crowded .SZOMB).process i).pFlag = 0) := by
    decide +kernel
  refine ⟨fun i hi => ?_, .inr fun i hi => ?_⟩
  · rcases hi.2 with h | h
    · exact (hstat i).1 h
    · exact (hstat i).2.1 h
  · rcases hi.2 with h | h
    · exact absurd h (hstat i).2.2.1
    · exact absurd (by rw [(hstat i).2.2.2 h]; rfl) hi.1.1

/-- **Who waits at low priority should go, and stays.** -/
theorem exists_not_expected : ¬ ∀ (s : Swapping) (c : Slot) (seconds : ℤ),
    s.pick (List.finRange NPROC) none (-1) = (some c, seconds) →
    (s.memory.allocMemory (s.size c)).1 = 0 → s.Expected c s.sched := by
  intro hall
  have h := hall (crowded .SWAIT) 0 5 (pick_crowded _) (full_crowded _)
  have heasy : (crowded .SWAIT).Easy 1 := ⟨⟨by decide, by decide, by decide⟩, .inl rfl⟩
  obtain ⟨i, hi, -⟩ := h.easy ⟨1, heasy⟩
  rw [sched_of_full (pick_crowded _) (full_crowded _)] at hi
  cases hi

end Swapping
end Proc
end UnixV6pp
