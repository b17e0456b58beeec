import UnixV6pp.Lib.Rotation
import UnixV6pp.Lib.Runs
import UnixV6pp.Proc.ProcessTable

/-!
# The choice of the next process

`Select` scans the table from the entry behind the one it has chosen last, and takes the first
of least `p_pri` among those that are ready to run and in memory.

## Main definitions

* `ProcessManager.select` — one round of `Select`; where it finds nobody, `Select` halts the
  processor until an interrupt, and goes round again.
* `Dispatch`, `Step` — calls of `Select` with arbitrary changes of the table in between.

## Main results

* `select_firstLeast` — what `Select` finds.
* `select_bypass` — **nobody is chosen twice while a process of least `p_pri` waits.**
-/

namespace UnixV6pp
namespace Proc

/-- The process may be chosen. -/
abbrev Process.Ready (p : Process) : Prop := p.pStat = .SRUN ∧ p.Loaded

namespace ProcessManager

variable (pm : ProcessManager)

/-- The entries in the order of the scan. -/
def scan : List Slot := (List.range NPROC).map fun count => Fin.ofNat NPROC (pm.lastSelect + 1 + count)

/-- The entry may be chosen. -/
abbrev Ready (i : Slot) : Prop := (pm.process i).Ready

abbrev pri (i : Slot) : ℤ := (pm.process i).pPri

/-- One round of `Select`. -/
def select : Option Slot × ProcessManager :=
  let pm' := { pm with runRun := 0 }
  match leastFrom pm.Ready pm.pri pm.scan none 256 with
  | (none, _) => (none, pm')
  | (some best, priority) =>
    let swtchNum := pm.swtchNum + 1
    (some best, { pm' with
      swtchNum := if swtchNum &&& 0x80000000 ≠ 0 then 0 else swtchNum
      curPri := priority
      lastSelect := best })

/-- How many entries the scan comes by before this one. -/
abbrev behind (i : Slot) : ℕ := ahead NPROC pm.lastSelect i

theorem scan_getElem? (d : ℕ) (i : Slot) :
    pm.scan[d]? = some i ↔ d < NPROC ∧ (pm.lastSelect + 1 + d) % NPROC = i := by
  rcases Nat.lt_or_ge d NPROC with hd | hd
  · simp [scan, Fin.ext_iff, hd]
  · simp [scan, Nat.not_lt.mpr hd]

/-- The scan comes by every entry, at its place. -/
theorem scan_behind (i : Slot) : pm.scan[pm.behind i]? = some i :=
  (pm.scan_getElem? _ i).mpr ⟨ahead_lt (by decide), rotation_ahead pm.lastSelect.2 i.2⟩

theorem mem_scan (i : Slot) : i ∈ pm.scan := List.mem_of_getElem? (pm.scan_behind i)

/-- The place in the scan is the distance. -/
theorem behind_of_getElem? {d : ℕ} {i : Slot} (h : pm.scan[d]? = some i) : pm.behind i = d := by
  rcases (pm.scan_getElem? d i).mp h with ⟨hd, hi⟩
  exact ahead_eq_of_mod pm.lastSelect.2 i.2 hd hi

/-- The first entry of least priority among those that may be chosen. -/
structure Chosen (c : Slot) : Prop where
  ready : pm.Ready c
  le : ∀ i, pm.Ready i → pm.pri c ≤ pm.pri i
  first : ∀ i, pm.Ready i → pm.behind i < pm.behind c → pm.pri c < pm.pri i

/-- **What a round of `Select` finds.** -/
theorem select_cases :
    (pm.select.1 = none ∧ pm.select.2.lastSelect = pm.lastSelect) ∨
    ∃ c, pm.select.1 = some c ∧ pm.select.2.lastSelect = c ∧ pm.Chosen c := by
  have hcases : (leastFrom pm.Ready pm.pri pm.scan none 256 = (none, 256) ∧ _) ∨
      ∃ x, leastFrom pm.Ready pm.pri pm.scan none 256 = (some x, pm.pri x) ∧
        FirstLeast pm.Ready pm.pri 256 pm.scan x := leastFrom_cases pm.scan none 256
  rcases hcases with ⟨heq, -⟩ | ⟨c, heq, hc⟩
  · exact .inl (by simp [select, heq])
  · refine .inr ⟨c, by simp [select, heq], by simp [select, heq], ?_⟩
    rcases hc.first with ⟨d, hd, hall⟩
    refine ⟨hc.may_self, fun i hi => hc.le (pm.mem_scan i) hi, fun i hi hlt => ?_⟩
    rw [pm.behind_of_getElem? hd] at hlt
    exact (hall _ i (pm.scan_behind i) hi).2 hlt

/-- With a process to choose, a round finds one. -/
theorem select_isSome {q : Slot} (hq : pm.Ready q) (hpri : pm.pri q < 256) :
    pm.select.1 ≠ none := by
  have hsome : ∃ x, leastFrom pm.Ready pm.pri pm.scan none 256 = (some x, pm.pri x) ∧ _ :=
    leastFrom_isSome none (pm.mem_scan q) hq hpri
  rcases hsome with ⟨c, heq, -⟩
  simp [select, heq]

end ProcessManager

/-! ### Call after call -/

/-- The table, and the entries that have been chosen, the last one first. -/
structure Dispatch where
  pm : ProcessManager
  chosen : List Slot

inductive Dispatch.Event
  | select
  /-- Whatever processes and interrupts do until the next call. -/
  | change (pm : ProcessManager)

/-- One event; nobody but `Select` has access to `lastSelect`. -/
inductive Dispatch.Step : Dispatch → Dispatch.Event → Dispatch → Prop
  | select (s : Dispatch) : Step s .select ⟨s.pm.select.2, s.pm.select.1.toList ++ s.chosen⟩
  | change (s : Dispatch) (pm : ProcessManager) (h : pm.lastSelect = s.pm.lastSelect) :
    Step s (.change pm) ⟨pm, s.chosen⟩

/-- The process may be chosen, and no other has a smaller priority. -/
def ProcessManager.Least (pm : ProcessManager) (q : Slot) : Prop :=
  pm.Ready q ∧ ∀ i, pm.Ready i → pm.pri q ≤ pm.pri i

namespace Dispatch

variable {q : Slot} {s s' : Dispatch} {e : Dispatch.Event}

/-- Until `q` is chosen, every choice was farther from `q` than the next one is. -/
def Nearing (q : Slot) (s : Dispatch) : Prop :=
  q ∉ s.chosen → s.chosen.Nodup ∧ ∀ c ∈ s.chosen, s.pm.behind q ≤ ahead NPROC c q

/-- A choice while `q` is least is not behind `q` in the scan. -/
theorem behind_le {pm : ProcessManager} {c : Slot} (hq : pm.Least q) (hc : pm.Chosen c) :
    pm.behind c ≤ pm.behind q := by
  by_contra hlt
  have hless : pm.pri c < pm.pri q := hc.first q hq.1 (Nat.lt_of_not_le hlt)
  exact absurd (hq.2 c hc.ready) (not_le.mpr hless)

theorem Nearing.step (h : Nearing q s) (hq : e = .select → s.pm.Least q) (hstep : Step s e s') :
    Nearing q s' := by
  cases hstep with
  | change pm hlast =>
    intro hnot
    rcases h hnot with ⟨hnodup, hall⟩
    refine ⟨hnodup, fun c hc => ?_⟩
    have hbehind : pm.behind q = s.pm.behind q := by unfold ProcessManager.behind; rw [hlast]
    exact hbehind.trans_le (hall c hc)
  | select =>
    rcases s.pm.select_cases with ⟨hnone, hlast⟩ | ⟨c, hsome, hlast, hc⟩
    · intro hnot
      simp only [hnone, Option.toList_none, List.nil_append, ProcessManager.behind, hlast] at hnot ⊢
      exact h hnot
    · intro hnot
      simp only [hsome, Option.toList_some, List.cons_append, List.nil_append, List.mem_cons,
        not_or] at hnot
      rcases h hnot.2 with ⟨hnodup, hall⟩
      -- the choice is nearer to `q` than all that came before
      have hnear : ahead NPROC c q < s.pm.behind q :=
        ahead_lt_of_le s.pm.lastSelect.2 c.2 q.2 (behind_le (hq rfl) hc)
          fun heq => hnot.1 (Fin.ext heq.symm)
      have hnew : c ∉ s.chosen := fun hmem => absurd (hall c hmem) (not_le.mpr hnear)
      simp only [hsome, Option.toList_some, List.cons_append, List.nil_append,
        ProcessManager.behind, hlast]
      refine ⟨List.nodup_cons.mpr ⟨hnew, hnodup⟩, ?_⟩
      simp only [List.mem_cons, forall_eq_or_imp, le_refl, true_and]
      exact fun d hd => hnear.le.trans (hall d hd)

end Dispatch

/-- **The choice, and the bypass**: a call with a process to choose returns the first one of least
priority behind the last choice; and while a process of least priority waits, nobody is chosen
twice. -/
theorem select_bypass :
    (∀ (pm : ProcessManager) (q : Slot), pm.Ready q → pm.pri q < 256 →
      ∃ c, pm.select.1 = some c ∧ pm.Chosen c) ∧
    (∀ (pm : ProcessManager) (q : Slot) (s : Dispatch),
      Runs Dispatch.Step (fun s e => e = .select → s.pm.Least q) ⟨pm, []⟩ s →
      q ∉ s.chosen → s.chosen.Nodup) := by
  constructor
  · intro pm q hq hpri
    rcases pm.select_cases with ⟨hnone, -⟩ | ⟨c, hsome, -, hc⟩
    · exact absurd hnone (pm.select_isSome hq hpri)
    · exact ⟨c, hsome, hc⟩
  · intro pm q s hrun hnot
    have hnearing : Dispatch.Nearing q s :=
      hrun.invariant (fun _ _ _ h hq hstep => h.step hq hstep) fun _ => by simp
    exact (hnearing hnot).1

/-- Two processes in memory; `Select` has chosen the first. -/
def twoReady : ProcessManager :=
  bootTable.setProc 1 { Process.empty with pPid := 1, pPpid := 0, pStat := .SRUN, pFlag := SLOAD }

/-- The second is chosen next, while the first waits. -/
theorem select_bypass_two :
    (∃ c, twoReady.select.1 = some c ∧ twoReady.Chosen c) ∧ ([1] : List Slot).Nodup := by
  have hleast : twoReady.Least 0 := by unfold ProcessManager.Least; decide
  refine ⟨select_bypass.1 twoReady 0 hleast.1 (by decide), ?_⟩
  exact select_bypass.2 twoReady 0 ⟨twoReady.select.2, [1]⟩
    (.single (fun _ => hleast) (.select ⟨twoReady, []⟩)) (by decide)

end Proc
end UnixV6pp
