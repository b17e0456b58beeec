import UnixV6pp.Proc.ProcessCalls

/-!
# Zombies and their parents

`Exit` wakes up the parent, and gives the children to process 1.  It does not wake up process 1,
which may be asleep in `Wait` while one of these children is a zombie already.

## Main definitions

* `Named` — process numbers belong to one process each.
* `NoneLeft` — nobody is asleep in `Wait` with a zombie among its children.
* `Event.Orderly` — no `Exit` gives a zombie to process 1 while it is asleep in `Wait`, and
  process numbers are not used twice.

## Main results

* `noneLeft_run` — **in orderly runs no zombie is left to a parent that sleeps**, and `Wait`
  without children returns `ECHILD`.
* `not_noneLeft` — three generations of processes that get there otherwise.
-/

namespace UnixV6pp
namespace Proc

open Proc.System

/-! ### What `Exit` does to the table -/

/-- The table when the children of a process have been given away. -/
def adopt (pid : ℤ) (is : List Slot) (pm : ProcessManager) : ProcessManager :=
  { pm with
    process := fun i =>
      if i ∈ is ∧ pid = (pm.process i).pPpid then { pm.process i with pPpid := 1 }
      else pm.process i }

section Reparent

variable {pm pm' : ProcessManager} {pid : ℤ} {is : List Slot} {p i : Slot}

theorem adopt_pPpid : ((adopt pid is pm).process i).pPpid =
    if i ∈ is ∧ pid = (pm.process i).pPpid then 1 else (pm.process i).pPpid := by
  unfold adopt
  dsimp only
  split <;> rfl

/-- Nothing else changes. -/
theorem adopt_entry : (adopt pid is pm).process i =
    { pm.process i with pPpid := ((adopt pid is pm).process i).pPpid } := by
  unfold adopt
  dsimp only
  split <;> rfl

theorem adopt_woken (h : pm.Woken pm') : (adopt pid is pm).Woken (adopt pid is pm') where
  process j := by
    unfold adopt
    dsimp only
    rw [h.pPpid j]
    rcases h.process j with heq | ⟨hrest, heq⟩
    · exact .inl (by rw [heq])
    · refine .inr ?_
      split
      · exact ⟨hrest, by rw [heq]; rfl⟩
      · exact ⟨hrest, heq⟩
  curPri := h.curPri
  runIn := h.runIn
  swtchNum := h.swtchNum
  lastSelect := h.lastSelect
  nextUniquePid := h.nextUniquePid

/-- A child given away twice stays where it is. -/
theorem adopt_cons (hi : pid = (pm.process i).pPpid) :
    adopt pid is (pm.setProc i { pm.process i with pPpid := 1 }) = adopt pid (i :: is) pm := by
  have hentry : (adopt pid is (pm.setProc i { pm.process i with pPpid := 1 })).process =
      (adopt pid (i :: is) pm).process := by
    funext j
    unfold adopt
    by_cases hj : j = i
    · subst hj
      simp [hi]
    · simp [hj]
  unfold adopt at hentry ⊢
  simp only [ProcessManager.setProc] at hentry ⊢
  rw [hentry]

theorem adopt_cons_of_ne (hi : pid ≠ (pm.process i).pPpid) :
    adopt pid (i :: is) pm = adopt pid is pm := by
  unfold adopt
  congr 1
  funext j
  by_cases hj : j = i
  · subst hj
    simp [hi]
  · simp [hj]

/-- The loop of `Exit`: the children are given away, and those that have been stopped go on. -/
theorem reparent_woken : (adopt pid is pm).Woken (reparent pid is pm) := by
  induction is generalizing pm with
  | nil =>
    have hnil : adopt pid [] pm = pm := by simp [adopt]
    rw [hnil]
    exact .refl pm
  | cons i is ih =>
    rw [reparent]
    split
    · next hi =>
      rw [← adopt_cons hi]
      dsimp only
      split
      · next hstop => exact (adopt_woken (ProcessManager.setRun_woken _ (.inr (.inr hstop)))).trans ih
      · exact ih
    · next hi =>
      rw [adopt_cons_of_ne hi]
      exact ih

end Reparent

/-- An entry when all children of a process have been given away. -/
theorem adopt_process {pid : ℤ} {pm : ProcessManager} (i : Slot) :
    (adopt pid (List.finRange NPROC) pm).process i =
      { pm.process i with
        pPpid := if pid = (pm.process i).pPpid then 1 else (pm.process i).pPpid } := by
  rw [adopt_entry, adopt_pPpid]
  simp

/-- The table in the middle of `Exit`: the process is a zombie, its children belong to process 1,
and nobody has been woken up. -/
structure Left (pm : ProcessManager) (p : Slot) (pm' : ProcessManager) : Prop where
  pPid : ∀ i, (pm'.process i).pPid = (pm.process i).pPid
  pWchan : ∀ i, (pm'.process i).pWchan = (pm.process i).pWchan
  pStat : ∀ i, (pm'.process i).pStat = if i = p then .SZOMB else (pm.process i).pStat
  pSig : ∀ i, (pm'.process i).pSig = (pm.process i).pSig
  pPpid : ∀ i ≠ p, (pm'.process i).pPpid =
    if (pm.process p).pPid = (pm.process i).pPpid then 1 else (pm.process i).pPpid

/-- `Exit` finds the parent and wakes it up, or makes the process a child of process 1. -/
theorem exit_cases (s : System) (p : Slot) :
    ∃ pm, Left s.pm p pm ∧ pm.Woken (s.exit p).pm ∧
      ((∃ j, (s.proc j).pPid = (s.proc p).pPpid ∧
        ((s.proc p).pPpid ≠ (s.proc p).pPid → (pm.process p).pPpid = (s.proc p).pPpid) ∧
        ∀ i, ¬((s.exit p).proc i).IsSleepOn (.process j)) ∨
      ((∀ j, (s.proc j).pPid ≠ (s.proc p).pPpid) ∧ (pm.process p).pPpid = 1 ∧
        ∀ i, ¬((s.exit p).proc i).IsSleepOn (.process 1))) := by
  let dead := s.pm.setProc p { s.proc p with pStat := .SZOMB }
  have hexit : (s.exit p).pm =
      reparent ((wakeParent dead p).process p).pPid (List.finRange NPROC) (wakeParent dead p) := rfl
  -- waking up a parent, and giving away the children, from any table
  have hrest : ∀ (pm : ProcessManager) (chan : Channel), (pm.process p).pPid = (s.proc p).pPid →
      wakeParent dead p = pm.wakeUpAll chan →
      (adopt (s.proc p).pPid (List.finRange NPROC) pm).Woken (s.exit p).pm ∧
      ∀ i, ¬((s.exit p).proc i).IsSleepOn chan := by
    intro pm chan hpid heq
    have hwoken : pm.Woken (pm.wakeUpAll chan) := pm.wakeUpAll_woken chan
    have hloop : (adopt (s.proc p).pPid (List.finRange NPROC) (pm.wakeUpAll chan)).Woken
        (s.exit p).pm := by
      rw [hexit, heq, hwoken.pPid, hpid]
      exact reparent_woken
    refine ⟨(adopt_woken hwoken).trans hloop, fun i => hloop.not_isSleepOn ?_⟩
    rw [adopt_entry]
    exact pm.wakeUpAll_isSleepOn chan i
  -- what the table is before, whoever the parent of the process is
  have hleft : ∀ ppid : ℤ, Left s.pm p (adopt (s.proc p).pPid (List.finRange NPROC)
      (s.pm.setProc p { s.proc p with pStat := .SZOMB, pPpid := ppid })) := by
    intro ppid
    constructor <;> intro i <;> rw [adopt_process] <;> by_cases hi : i = p <;> simp [hi]
  have hdead : ∀ j, (dead.process j).pPid = (s.proc j).pPid := by
    intro j
    by_cases hj : j = p <;> simp [dead, hj]
  have hppid : (dead.process p).pPpid = (s.proc p).pPpid := by simp [dead]
  cases hfind : (List.finRange NPROC).find? fun i =>
      (dead.process i).pPid = (dead.process p).pPpid with
  | some j =>
    have hj : (s.proc j).pPid = (s.proc p).pPpid := by
      rw [← hppid, ← hdead]
      simpa using List.find?_some hfind
    rcases hrest dead (.process j) (hdead p) (by simp [wakeParent, hfind]) with ⟨hwoken, hnot⟩
    refine ⟨_, hleft (s.proc p).pPpid, hwoken, .inl ⟨j, hj, fun hown => ?_, hnot⟩⟩
    rw [adopt_process]
    simp [hown.symm]
  | none =>
    have hno : ∀ j, (s.proc j).pPid ≠ (s.proc p).pPpid := by
      intro j
      rw [← hppid, ← hdead]
      simpa using List.find?_eq_none.mp hfind j (List.mem_finRange j)
    have hone : dead.setProc p { dead.process p with pPpid := 1 } =
        s.pm.setProc p { s.proc p with pStat := .SZOMB, pPpid := 1 } := by
      simp [dead, ProcessManager.setProc]
    rcases hrest (dead.setProc p { dead.process p with pPpid := 1 }) (.process 1)
      (by simp [dead]) (by simp [wakeParent, hfind]) with ⟨hwoken, hnot⟩
    rw [hone] at hwoken
    refine ⟨_, hleft 1, hwoken, .inr ⟨hno, ?_, hnot⟩⟩
    rw [adopt_process]
    simp

/-! ### What holds in orderly runs -/

/-- Process numbers belong to one process each; processes 0 and 1 stay where they are. -/
structure Named (pm : ProcessManager) : Prop where
  free : ∀ i, (pm.process i).pStat = .SNULL → (pm.process i).pPid = 0 ∧ (pm.process i).pPpid = -1
  pid_ne : ∀ i, (pm.process i).pStat ≠ .SNULL → (pm.process i).pPid ≠ -1
  unique : ∀ i j, (pm.process i).pStat ≠ .SNULL → (pm.process j).pStat ≠ .SNULL →
    (pm.process i).pPid = (pm.process j).pPid → i = j
  own : ∀ i, (pm.process i).pPpid ≠ (pm.process i).pPid
  zero : (pm.process 0).pStat ≠ .SNULL ∧ (pm.process 0).pPid = 0 ∧ (pm.process 0).pPpid = -1
  one : (pm.process 1).pStat ≠ .SNULL ∧ (pm.process 1).pPid = 1 ∧ (pm.process 1).pPpid = 0

/-- A process in `Wait` lives, and has a child. -/
structure Parent (pm : ProcessManager) (p : Slot) : Prop where
  live : (pm.process p).pStat ≠ .SNULL
  not_zombie : (pm.process p).pStat ≠ .SZOMB
  child : ∃ i, (pm.process i).pPpid = (pm.process p).pPid

/-- Nobody is asleep in `Wait` with a zombie among its children. -/
def NoneLeft (pm : ProcessManager) : Prop :=
  ∀ q i, (pm.process q).IsSleepOn (.process q) → (pm.process i).pStat = .SZOMB →
    (pm.process i).pPpid ≠ (pm.process q).pPid

structure Family (s : System) : Prop where
  named : Named s.pm
  awake : ¬(s.pm.process 0).IsSleepOn (.process 0) ∧ s.waiting 0 = none
  parent : ∀ p, s.waiting p ≠ none → Parent s.pm p
  noneLeft : NoneLeft s.pm

/-- The condition on a step: a process that has a zombie among its children, and is not a child of
process 1 itself, does not exit while process 1 is asleep in `Wait`; and a new process gets a
number that nobody has. -/
def Event.Orderly (s : System) : Event → Prop
  | .exit p => (s.proc p).pPpid = 1 ∨
      ∀ i, (s.proc i).pStat = .SZOMB → (s.proc i).pPpid = (s.proc p).pPid →
        ∀ q, (s.proc q).pPid = 1 → ¬(s.proc q).IsSleepOn (.process q)
  | .fork _ => signed s.pm.nextUniquePid ≠ -1 ∧
      ∀ i, (s.proc i).pStat ≠ .SNULL → (s.proc i).pPid ≠ signed s.pm.nextUniquePid
  | _ => True

section Kept

variable {pm pm' : ProcessManager} {s s' : System} {p : Slot}

/-- Only numbers count, and which entries are free. -/
theorem Named.congr (hn : Named pm) (hpid : ∀ i, (pm'.process i).pPid = (pm.process i).pPid)
    (hppid : ∀ i, (pm'.process i).pPpid = (pm.process i).pPpid)
    (hfree : ∀ i, (pm'.process i).pStat = .SNULL ↔ (pm.process i).pStat = .SNULL) : Named pm' := by
  constructor <;> simp only [hpid, hppid, ne_eq, hfree]
  · exact hn.free
  · exact hn.pid_ne
  · exact hn.unique
  · exact hn.own
  · exact hn.zero
  · exact hn.one

theorem Named.kept (hn : Named pm) (h : Kept pm pm') : Named pm' :=
  hn.congr h.pPid h.pPpid h.free

theorem Parent.kept (hp : Parent pm p) (h : Kept pm pm') : Parent pm' p := by
  refine ⟨(h.free p).not.mpr hp.live, (h.zombie p).not.mpr hp.not_zombie, ?_⟩
  rcases hp.child with ⟨i, hi⟩
  exact ⟨i, by rw [h.pPpid, h.pPid]; exact hi⟩

theorem NoneLeft.kept (hn : NoneLeft pm) (h : Kept pm pm') : NoneLeft pm' := by
  intro q i hq hi
  rw [h.pPpid, h.pPid]
  exact hn q i (h.sleeps q hq) ((h.zombie i).mp hi)

/-- What changes nothing about parents and zombies. -/
theorem Family.kept (hs : Family s) (h : Kept s.pm s'.pm) (hw : s'.waiting = s.waiting) :
    Family s' where
  named := hs.named.kept h
  awake := ⟨fun h0 => hs.awake.1 (h.sleeps 0 h0), by rw [hw]; exact hs.awake.2⟩
  parent p hp := (hs.parent p (by rwa [hw] at hp)).kept h
  noneLeft := hs.noneLeft.kept h

end Kept

/-! ### `Exit` -/

section Exit

variable {s : System} {p : Slot} {pm : ProcessManager}

/-- The process that ends is not free, and process 1 has a parent. -/
theorem Family.exit_facts (hs : Family s) (ha : s.Active p) :
    (s.proc p).pStat ≠ .SNULL ∧ (s.proc p).pPid ≠ 0 ∧ (s.proc p).pPid ≠ -1 ∧
    (p = 1 → (s.proc 0).pPid = (s.proc p).pPpid) := by
  have hlive : (s.proc p).pStat ≠ .SNULL := by simp [ha.run]
  refine ⟨hlive, fun h => ha.ne_zero ?_, hs.named.pid_ne p hlive, fun h => ?_⟩
  · exact hs.named.unique p 0 hlive hs.named.zero.1 (h.trans hs.named.zero.2.1.symm)
  · subst h
    exact hs.named.zero.2.1.trans hs.named.one.2.2.symm

/-- Somebody asleep in `Wait` is the only entry with its number. -/
theorem Family.asleep_unique (hs : Family s) {q j : Slot}
    (hq : (s.proc q).IsSleepOn (.process q)) (hj : (s.proc j).pPid = (s.proc q).pPid) : j = q := by
  have hlive : (s.proc q).pStat ≠ .SNULL := hq.pStat_ne.1
  by_cases hfree : (s.proc j).pStat = .SNULL
  · -- free entries have the number of process 0, which is never in `Wait`
    have hpid : (s.proc q).pPid = 0 := by rw [← hj]; exact (hs.named.free j hfree).1
    have hq0 : q = 0 :=
      hs.named.unique q 0 hlive hs.named.zero.1 (hpid.trans hs.named.zero.2.1.symm)
    subst hq0
    exact absurd hq hs.awake.1
  · exact hs.named.unique j q hfree hlive hj

theorem Family.left_named (hs : Family s) (ha : s.Active p) (hleft : Left s.pm p pm)
    (hself : (pm.process p).pPpid = (s.proc p).pPpid ∨
      (∀ j, (s.proc j).pPid ≠ (s.proc p).pPpid) ∧ (pm.process p).pPpid = 1) : Named pm := by
  rcases hs.exit_facts ha with ⟨hlive, hpid, hpid', hone⟩
  have hn := hs.named
  have hfree : ∀ i, (pm.process i).pStat = .SNULL ↔ (s.proc i).pStat = .SNULL := by
    intro i
    rw [hleft.pStat]
    split
    · next hi => simp [hi, hlive]
    · rfl
  have hfree_ne : ∀ i, (s.proc i).pStat = .SNULL → i ≠ p := fun i hi h => hlive (h ▸ hi)
  have hone_ne : ∀ i, (s.proc i).pPid = 1 → i = 1 := by
    intro i hi
    refine hn.unique i 1 (fun h => ?_) hn.one.1 (hi.trans hn.one.2.1.symm)
    rw [(hn.free i h).1] at hi
    exact absurd hi (by decide)
  constructor <;> simp only [hleft.pPid, ne_eq, hfree]
  · intro i hi
    rcases hn.free i hi with ⟨h0, h1⟩
    rw [hleft.pPpid i (hfree_ne i hi), h1, if_neg hpid']
    exact ⟨h0, rfl⟩
  · exact hn.pid_ne
  · exact hn.unique
  · intro i
    by_cases hi : i = p
    · subst hi
      rcases hself with h | ⟨hno, h⟩ <;> rw [h]
      · exact hn.own i
      · exact fun heq => hno 0 (hone (hone_ne i heq.symm))
    · rw [hleft.pPpid i hi]
      split
      · next hchild =>
        -- only process 1 has the number 1, and its parent is process 0
        intro heq
        have hi1 : i = 1 := hone_ne i heq.symm
        subst hi1
        exact hpid (hchild.trans hn.one.2.2)
      · exact hn.own i
  · rw [hleft.pPpid 0 ha.ne_zero.symm, hn.zero.2.2, if_neg hpid']
    exact ⟨hn.zero.1, hn.zero.2.1, rfl⟩
  · refine ⟨hn.one.1, hn.one.2.1, ?_⟩
    by_cases hp1 : (1 : Slot) = p
    · rcases hself with h | ⟨hno, -⟩
      · rw [← hp1] at h
        rw [h]
        exact hn.one.2.2
      · exact absurd (hone hp1.symm) (hno 0)
    · rw [hleft.pPpid 1 hp1, hn.one.2.2, if_neg hpid]

/-- A process in `Wait` keeps the child it has. -/
theorem Family.left_parent (hs : Family s) (ha : s.Active p) (hleft : Left s.pm p pm)
    (hself : (pm.process p).pPpid = (s.proc p).pPpid ∨
      (∀ j, (s.proc j).pPid ≠ (s.proc p).pPpid) ∧ (pm.process p).pPpid = 1)
    {q : Slot} (hq : s.waiting q ≠ none) : Parent pm q := by
  have hpar : Parent s.pm q := hs.parent q hq
  have hqp : q ≠ p := fun h => hq (h ▸ ha.waiting)
  rcases hpar.child with ⟨k, hk⟩
  refine ⟨?_, ?_, k, ?_⟩
  · rw [hleft.pStat, if_neg hqp]
    exact hpar.live
  · rw [hleft.pStat, if_neg hqp]
    exact hpar.not_zombie
  · rw [hleft.pPid, ← hk]
    by_cases hkp : k = p
    · subst hkp
      rcases hself with h | ⟨hno, -⟩
      · exact h
      · exact absurd hk.symm (hno q)
    · -- the parent of the child is not the process that ends
      rw [hleft.pPpid k hkp, if_neg]
      rw [hk]
      exact fun h => hqp (hs.named.unique q p hpar.live (hs.exit_facts ha).1 h.symm)

/-- **`Exit` leaves no zombie to a process asleep in `Wait`**, if it does not give process 1 one. -/
theorem Family.exit (hs : Family s) (ha : s.Active p) (ho : (Event.exit p).Orderly s) :
    Family (s.exit p) := by
  rcases exit_cases s p with ⟨pm, hleft, hwoken, hcases⟩
  have hself : (pm.process p).pPpid = (s.proc p).pPpid ∨
      (∀ j, (s.proc j).pPid ≠ (s.proc p).pPpid) ∧ (pm.process p).pPpid = 1 :=
    hcases.imp (fun ⟨_, _, h, _⟩ => h (hs.named.own p)) fun ⟨hno, h, _⟩ => ⟨hno, h⟩
  have hkept : Kept pm (s.exit p).pm := hwoken.kept
  -- somebody asleep afterwards has been asleep before
  have hasleep : ∀ q, ((s.exit p).proc q).IsSleepOn (.process q) →
      q ≠ p ∧ (s.proc q).IsSleepOn (.process q) := by
    intro q hq
    have hq' := hkept.sleeps q hq
    have hqp : q ≠ p := by
      intro h
      refine hq'.pStat_ne.2.2 ?_
      rw [hleft.pStat, if_pos h]
    rw [Process.IsSleepOn, hleft.pWchan, hleft.pStat, if_neg hqp] at hq'
    exact ⟨hqp, hq'⟩
  refine ⟨(hs.left_named ha hleft hself).kept hkept, ⟨fun h => hs.awake.1 (hasleep 0 h).2,
    hs.awake.2⟩, fun q hq => (hs.left_parent ha hleft hself hq).kept hkept, ?_⟩
  intro q i hq hi heq
  rcases hasleep q hq with ⟨hqp, hq'⟩
  rw [hkept.pPpid, hkept.pPid, hleft.pPid] at heq
  have hi' : (pm.process i).pStat = .SZOMB := (hkept.zombie i).mp hi
  -- a parent of the process, or process 1, has been woken up
  have hparent : (s.proc p).pPpid ≠ (s.proc q).pPid := by
    intro h
    rcases hcases with ⟨j, hj, -, hnot⟩ | ⟨hno, -, -⟩
    · have hjq : j = q := hs.asleep_unique hq' (hj.trans h)
      exact hnot q (hjq ▸ hq)
    · exact hno q h.symm
  have hone : (∀ j, (s.proc j).pPid ≠ (s.proc p).pPpid) → (s.proc q).pPid ≠ 1 := by
    intro hno h
    rcases hcases with ⟨j, hj, -, -⟩ | ⟨-, -, hnot⟩
    · exact hno j hj
    · have h1 : (1 : Slot) = q := hs.asleep_unique hq' (hs.named.one.2.1.trans h.symm)
      exact hnot q (h1 ▸ hq)
  by_cases hip : i = p
  · subst hip
    rcases hself with h | ⟨hno, h⟩ <;> rw [h] at heq
    · exact hparent heq
    · exact hone hno heq.symm
  · rw [hleft.pStat, if_neg hip] at hi'
    rw [hleft.pPpid i hip] at heq
    split at heq
    · next hchild =>
      rcases ho with hp1 | hall
      · exact hparent (hp1.trans heq)
      · exact hall i hi' hchild.symm q heq.symm hq'
    · exact hs.noneLeft q i hq' hi' heq

end Exit

/-! ### `Fork` -/

section Fork

variable {s : System} {p : Slot}

theorem freeSlot_free {pm : ProcessManager} {c : Slot} (h : freeSlot pm = some c) :
    (pm.process c).pStat = .SNULL := by
  simpa using List.find?_some h

/-- `Fork` fails, or the entry of the child is a copy. -/
theorem fork_cases (s : System) (p : Slot) :
    ((s.fork p).pm = s.pm ∧ (s.fork p).waiting = s.waiting ∧ (s.fork p).sent = s.sent) ∨
    ∃ c, freeSlot s.pm = some c ∧ (s.proc c).pStat = .SNULL ∧
      (s.fork p).pm.process c = clone (s.proc p) (s.proc c) (signed s.pm.nextUniquePid) ∧
      (∀ i ≠ c, (s.fork p).pm.process i = s.pm.process i) ∧
      (s.fork p).waiting = Function.update s.waiting c none ∧
      (s.fork p).sent = Function.update s.sent c [] := by
  unfold System.fork
  cases hfree : freeSlot s.pm with
  | none => exact .inl ⟨rfl, rfl, rfl⟩
  | some c =>
    exact .inr ⟨c, rfl, freeSlot_free hfree, Function.update_self c _ s.pm.process,
      fun i hi => Function.update_of_ne hi _ s.pm.process, rfl, rfl⟩

theorem Family.fork (hs : Family s) (ha : s.Active p) (ho : (Event.fork p).Orderly s) :
    Family (s.fork p) := by
  have hn := hs.named
  rcases fork_cases s p with ⟨hpm, hwaiting, -⟩ | ⟨c, -, hc, hself, hother, hwaiting, -⟩
  · exact hs.kept (hpm ▸ .refl _) hwaiting
  · have hc_ne : ∀ i, (s.proc i).pStat ≠ .SNULL → i ≠ c := fun i hi h => hi (h ▸ hc)
    have hlive : (s.proc p).pStat ≠ .SNULL := by simp [ha.run]
    rcases ho with ⟨hpid, hnew⟩
    generalize s.fork p = s' at hself hother hwaiting ⊢
    have hstat : (s'.pm.process c).pStat = .SRUN := by rw [hself]; rfl
    have hppid : (s'.pm.process c).pPpid = (s.proc p).pPid := by rw [hself]; rfl
    have hpid' : (s'.pm.process c).pPid = signed s.pm.nextUniquePid := by rw [hself]; rfl
    have hnamed : Named s'.pm := by
      constructor
      · intro i hi
        have hic : i ≠ c := fun h => by simp [h, hstat] at hi
        rw [hother i hic] at hi ⊢
        exact hn.free i hi
      · intro i hi
        by_cases hic : i = c
        · rw [hic, hpid']
          exact hpid
        · rw [hother i hic] at hi ⊢
          exact hn.pid_ne i hi
      · intro i j hi hj heq
        by_cases hic : i = c <;> by_cases hjc : j = c
        · exact hic.trans hjc.symm
        · rw [hother j hjc] at hj heq
          rw [hic, hpid'] at heq
          exact absurd heq.symm (hnew j hj)
        · rw [hother i hic] at hi heq
          rw [hjc, hpid'] at heq
          exact absurd heq (hnew i hi)
        · rw [hother i hic] at hi heq
          rw [hother j hjc] at hj heq
          exact hn.unique i j hi hj heq
      · intro i
        by_cases hic : i = c
        · rw [hic, hppid, hpid']
          exact hnew p hlive
        · rw [hother i hic]
          exact hn.own i
      · rw [hother 0 (hc_ne 0 hn.zero.1)]
        exact hn.zero
      · rw [hother 1 (hc_ne 1 hn.one.1)]
        exact hn.one
    refine ⟨hnamed, ?_, fun q hq => ?_, fun q i hq hi => ?_⟩
    · rw [hother 0 (hc_ne 0 hn.zero.1), hwaiting, Function.update_of_ne (hc_ne 0 hn.zero.1)]
      exact hs.awake
    · have hqc : q ≠ c := fun h => by simp [h, hwaiting] at hq
      rw [hwaiting, Function.update_of_ne hqc] at hq
      have hpar := hs.parent q hq
      rcases hpar.child with ⟨k, hk⟩
      -- a free entry is nobody's child
      have hkc : k ≠ c := by
        intro h
        rw [h, (hn.free c hc).2] at hk
        exact hn.pid_ne q hpar.live hk.symm
      refine ⟨?_, ?_, k, ?_⟩
      · rw [hother q hqc]
        exact hpar.live
      · rw [hother q hqc]
        exact hpar.not_zombie
      · rw [hother q hqc, hother k hkc]
        exact hk
    · have hqc : q ≠ c := fun h => hq.pStat_ne.2.1 (h ▸ hstat)
      have hic : i ≠ c := fun h => by simp [h, hstat] at hi
      rw [hother q hqc] at hq ⊢
      rw [hother i hic] at hi ⊢
      exact hs.noneLeft q i hq hi

end Fork

/-! ### `Wait` -/

section Wait

variable {s : System} {p : Slot} {pm : ProcessManager} {pid : ℤ} {is : List Slot} {h : Bool}

theorem scanChildren_some {b : Bool} {i : Slot} (hscan : scanChildren pm pid is h = (some i, b)) :
    pid = (pm.process i).pPpid ∧ (pm.process i).pStat = .SZOMB := by
  induction is generalizing h with
  | nil => simp [scanChildren] at hscan
  | cons j is ih =>
    rw [scanChildren] at hscan
    split at hscan
    · next hj =>
      split at hscan
      · next hz =>
        cases hscan
        exact ⟨hj, hz⟩
      · exact ih hscan
    · exact ih hscan

theorem scanChildren_none {b : Bool} (hscan : scanChildren pm pid is h = (none, b)) :
    (∀ i ∈ is, pid = (pm.process i).pPpid → (pm.process i).pStat ≠ .SZOMB) ∧
    (b = true ↔ h = true ∨ ∃ i ∈ is, pid = (pm.process i).pPpid) := by
  induction is generalizing h with
  | nil =>
    cases hscan
    simp
  | cons j is ih =>
    rw [scanChildren] at hscan
    split at hscan
    · next hj =>
      split at hscan
      · cases hscan
      · next hz =>
        rcases ih hscan with ⟨hall, hb⟩
        simp [hb, ← hj, hz] at hall ⊢
        exact hall
    · next hj =>
      rcases ih hscan with ⟨hall, hb⟩
      simp only [List.mem_cons, forall_eq_or_imp, exists_eq_or_imp]
      exact ⟨⟨fun heq => absurd heq hj, hall⟩, by simp [hb, hj]⟩

/-- Nothing changes but the user area, and perhaps the process leaves `Wait`. -/
theorem Family.leave {s' : System} (hs : Family s) (hpm : s'.pm = s.pm)
    (hw : s'.waiting = Function.update s.waiting p none) : Family s' := by
  have hsub : ∀ q, s'.waiting q ≠ none → s.waiting q ≠ none := by
    intro q hq h
    rw [hw, Function.update_apply] at hq
    split at hq <;> contradiction
  refine ⟨hpm ▸ hs.named, ⟨hpm ▸ hs.awake.1, ?_⟩, fun q hq => hpm ▸ hs.parent q (hsub q hq),
    hpm ▸ hs.noneLeft⟩
  by_contra h
  exact hsub 0 h hs.awake.2

/-- A process goes to sleep that has a child, and no zombie among its children. -/
theorem Family.sleepWait (hs : Family s) (hp : p ≠ 0) (hrun : (s.proc p).pStat = .SRUN)
    (hchild : ∃ i, (s.proc i).pPpid = (s.proc p).pPid)
    (hnone : ∀ i, (s.proc i).pPpid = (s.proc p).pPid → (s.proc i).pStat ≠ .SZOMB) :
    Family (s.sleepWait p true) := by
  unfold System.sleepWait
  split
  · exact hs.leave rfl rfl
  · -- before `RunIn` is looked at
    have hasleep : Family ((s.setProc p { s.proc p with
        pWchan := .process p, pStat := .SWAIT, pPri := PWAIT }).setWaiting p (some true)) := by
      let pm := s.pm.setProc p { s.proc p with
        pWchan := .process p, pStat := .SWAIT, pPri := PWAIT }
      have hentry : ∀ i, (pm.process i).pPid = (s.pm.process i).pPid ∧
          (pm.process i).pPpid = (s.pm.process i).pPpid ∧
          (pm.process i).pStat = if i = p then .SWAIT else (s.pm.process i).pStat := by
        intro i
        by_cases hi : i = p
        · subst hi
          simp [pm]
        · simp [pm, hi]
      have hfree : ∀ i, (pm.process i).pStat = .SNULL ↔ (s.pm.process i).pStat = .SNULL := by
        intro i
        rw [(hentry i).2.2]
        split
        · next hi => simp [hi, hrun]
        · rfl
      have hzombie : ∀ i, (pm.process i).pStat = .SZOMB ↔ (s.pm.process i).pStat = .SZOMB := by
        intro i
        rw [(hentry i).2.2]
        split
        · next hi => simp [hi, hrun]
        · rfl
      have hother : ∀ q ≠ p, pm.process q = s.pm.process q := fun q hq => s.pm.setProc_of_ne _ hq
      refine ⟨hs.named.congr (fun i => (hentry i).1) (fun i => (hentry i).2.1) hfree, ⟨?_, ?_⟩,
        fun q hq => ?_, fun q i hq hi => ?_⟩
      · show ¬(pm.process 0).IsSleepOn (.process 0)
        rw [hother 0 hp.symm]
        exact hs.awake.1
      · exact (Function.update_of_ne hp.symm _ _).trans hs.awake.2
      · show Parent pm q
        by_cases hqp : q = p
        · subst hqp
          refine ⟨(hfree q).not.mpr (by simp [hrun]), (hzombie q).not.mpr (by simp [hrun]), ?_⟩
          rcases hchild with ⟨i, hi⟩
          exact ⟨i, by rw [(hentry i).2.1, (hentry q).1]; exact hi⟩
        · have hpar : Parent s.pm q := by
            refine hs.parent q fun h => hq ?_
            exact (Function.update_of_ne hqp _ _).trans h
          rcases hpar.child with ⟨i, hi⟩
          exact ⟨(hfree q).not.mpr hpar.live, (hzombie q).not.mpr hpar.not_zombie, i,
            by rw [(hentry i).2.1, (hentry q).1]; exact hi⟩
      · show (pm.process i).pPpid ≠ (pm.process q).pPid
        rw [(hentry i).2.1, (hentry q).1]
        have hi' : (s.pm.process i).pStat = .SZOMB := (hzombie i).mp hi
        by_cases hqp : q = p
        · rw [hqp]
          exact fun heq => hnone i heq hi'
        · have hq' : (pm.process q).IsSleepOn (.process q) := hq
          rw [hother q hqp] at hq'
          exact hs.noneLeft q i hq' hi'
    dsimp only
    generalize (s.setProc p { s.proc p with
        pWchan := .process p, pStat := .SWAIT, pPri := PWAIT }).setWaiting p (some true) = s'
      at hasleep ⊢
    split
    · have hzero : Kept s'.pm { s'.pm with runIn := 0 } :=
        ⟨fun _ => rfl, fun _ => rfl, fun _ => .rfl, fun _ => .rfl, fun _ h => h, rfl⟩
      have hwoken : Kept { s'.pm with runIn := 0 } _ :=
        (ProcessManager.wakeUpAll_woken { s'.pm with runIn := 0 } .runIn).kept
      exact hasleep.kept (hzero.trans hwoken) rfl
    · exact hasleep

/-- A zombie is taken out of the table by its parent. -/
theorem Family.reap (hs : Family s) (hp : p ≠ 0) (hrun : (s.proc p).pStat = .SRUN) {i : Slot}
    (hi : (s.proc p).pPid = (s.proc i).pPpid) (hz : (s.proc i).pStat = .SZOMB) {s' : System}
    (hpm : s'.pm = s.pm.setProc i (reaped (s.proc i)))
    (hw : s'.waiting = Function.update s.waiting p none) : Family s' := by
  have hn := hs.named
  have hlive : (s.pm.process p).pStat ≠ .SNULL := by simp [hrun]
  have hself : s'.pm.process i = reaped (s.proc i) := by rw [hpm]; exact s.pm.setProc_self _ _
  have hother : ∀ j ≠ i, s'.pm.process j = s.pm.process j := by
    intro j hj
    rw [hpm]
    exact s.pm.setProc_of_ne _ hj
  have hfree : (s'.pm.process i).pStat = .SNULL := by rw [hself]; rfl
  -- processes 0 and 1 are nobody's zombies
  have h0 : (0 : Slot) ≠ i := by
    intro h
    rw [← h, hn.zero.2.2] at hi
    exact hn.pid_ne p hlive hi
  have h1 : (1 : Slot) ≠ i := by
    intro h
    rw [← h, hn.one.2.2] at hi
    exact hp (hn.unique p 0 hlive hn.zero.1 (hi.trans hn.zero.2.1.symm))
  refine ⟨⟨fun j hj => ?_, fun j hj => ?_, fun j k hj hk heq => ?_, fun j => ?_, ?_, ?_⟩, ⟨?_, ?_⟩,
    fun q hq => ?_, fun q j hq hj => ?_⟩
  · by_cases hji : j = i
    · rw [hji, hself]
      exact ⟨rfl, rfl⟩
    · rw [hother j hji] at hj ⊢
      exact hn.free j hj
  · have hji : j ≠ i := fun h => hj (h ▸ hfree)
    rw [hother j hji] at hj ⊢
    exact hn.pid_ne j hj
  · have hji : j ≠ i := fun h => hj (h ▸ hfree)
    have hki : k ≠ i := fun h => hk (h ▸ hfree)
    rw [hother j hji] at hj heq
    rw [hother k hki] at hk heq
    exact hn.unique j k hj hk heq
  · by_cases hji : j = i
    · rw [hji, hself]
      exact (by decide : (-1 : ℤ) ≠ 0)
    · rw [hother j hji]
      exact hn.own j
  · rw [hother 0 h0]
    exact hn.zero
  · rw [hother 1 h1]
    exact hn.one
  · rw [hother 0 h0]
    exact hs.awake.1
  · rw [hw, Function.update_of_ne hp.symm]
    exact hs.awake.2
  · have hqp : q ≠ p := fun h => by simp [h, hw] at hq
    rw [hw, Function.update_of_ne hqp] at hq
    have hpar := hs.parent q hq
    have hqi : q ≠ i := fun h => hpar.not_zombie (h ▸ hz)
    rcases hpar.child with ⟨k, hk⟩
    -- the zombie is a child of nobody else
    have hki : k ≠ i := by
      intro h
      rw [h] at hk
      exact hqp (hn.unique q p hpar.live hlive (hk.symm.trans hi.symm))
    exact ⟨by rw [hother q hqi]; exact hpar.live, by rw [hother q hqi]; exact hpar.not_zombie, k,
      by rw [hother q hqi, hother k hki]; exact hk⟩
  · have hqi : q ≠ i := fun h => hq.pStat_ne.1 (h ▸ hfree)
    have hji : j ≠ i := fun h => by simp [h, hfree] at hj
    rw [hother q hqi] at hq ⊢
    rw [hother j hji] at hj ⊢
    exact hs.noneLeft q j hq hj

/-- One round of `Wait`; a round that is not the first has met a child before. -/
theorem Family.waitRound (hs : Family s) (hp : p ≠ 0) (hrun : (s.proc p).pStat = .SRUN)
    (hchild : h = true → ∃ i, (s.proc i).pPpid = (s.proc p).pPid) : Family (s.waitRound p h) := by
  unfold System.waitRound
  split
  · next i b hscan =>
    rcases scanChildren_some hscan with ⟨hi, hz⟩
    exact hs.reap hp hrun hi hz rfl rfl
  · next hscan =>
    rcases scanChildren_none hscan with ⟨hnone, hb⟩
    refine hs.sleepWait hp hrun ?_ fun i hi => hnone i (List.mem_finRange i) hi.symm
    rcases hb.mp rfl with hh | ⟨i, -, hi⟩
    · exact hchild hh
    · exact ⟨i, hi.symm⟩
  · exact hs.leave rfl rfl

/-- `Wait` of a process without children. -/
theorem wait_error (hnone : ∀ i, (s.proc i).pPpid ≠ (s.proc p).pPid) :
    ((s.wait p).user p).uError = .ECHILD := by
  unfold System.wait System.waitRound
  split
  · next i b hscan => exact absurd (scanChildren_some hscan).1.symm (hnone i)
  · next hscan =>
    rcases (scanChildren_none hscan).2.mp rfl with hh | ⟨i, -, hi⟩
    · cases hh
    · exact absurd hi.symm (hnone i)
  · simp [System.error, System.setUser, System.setWaiting]

end Wait

/-! ### Runs -/

variable {s s' : System} {e : Event}

theorem Family.step (hs : Family s) (ho : e.Orderly s) (h : Step s e s') : Family s' := by
  by_cases he : e.OfFamily
  · rcases h with ⟨hen, rfl⟩
    cases e with
    | fork p => exact hs.fork hen ho
    | exit p => exact hs.exit hen ho
    | wait p => exact hs.waitRound hen.ne_zero hen.run nofun
    | resume p =>
      rcases hen with ⟨hrun, hw⟩
      have hp : p ≠ 0 := fun h0 => hw (h0 ▸ hs.awake.2)
      show Family (s.resume p _)
      unfold System.resume
      split
      · exact hs.leave rfl rfl
      · exact hs.waitRound hp hrun fun _ => (hs.parent p hw).child
    | _ => exact absurd he (by simp [Event.OfFamily])
  · rcases h.kept he with ⟨hkept, hw⟩
    exact hs.kept hkept hw

theorem family_started : Family started := by
  have hcases : ∀ i : Slot, i = 0 ∨ i = 1 ∨ started.pm.process i = .empty := by
    intro i
    by_cases h0 : i = 0
    · exact .inl h0
    · by_cases h1 : i = 1
      · exact .inr (.inl h1)
      · exact .inr (.inr (by rw [started_process, if_neg h0, if_neg h1]))
  have hzero : started.pm.process 0 = { bootTable.process 0 with pTtyp := 0 } := rfl
  have hone : started.pm.process 1 =
    { Process.empty with pPid := 1, pPpid := 0, pStat := .SRUN, pFlag := SLOAD, pTtyp := 1 } := rfl
  have hrun : ∀ i, ¬(started.pm.process i).IsSleepOn (.process i) := by
    intro i h
    rcases hcases i with rfl | rfl | hi
    · exact absurd h.2 (by rw [hzero]; decide)
    · exact absurd h.2 (by rw [hone]; decide)
    · exact absurd h.2 (by rw [hi]; decide)
  have hwait : ∀ p, started.waiting p = none := by
    intro p
    exact Function.update_apply _ _ _ _ |>.trans (by split <;> rfl)
  refine ⟨⟨fun i hi => ?_, fun i hi => ?_, fun i j hi hj heq => ?_, fun i => ?_, by decide,
    by decide⟩, ⟨hrun 0, rfl⟩, fun p hp => (hp (hwait p)).elim, fun q i hq => absurd hq (hrun q)⟩
  · rcases hcases i with rfl | rfl | h
    · exact absurd hi (by decide)
    · exact absurd hi (by decide)
    · rw [h]
      decide
  · rcases hcases i with rfl | rfl | h
    · decide
    · decide
    · rw [h] at hi
      exact absurd rfl hi
  · rcases hcases i with rfl | rfl | h <;> rcases hcases j with rfl | rfl | h'
    · rfl
    · exact absurd heq (by decide)
    · exact absurd rfl (h' ▸ hj)
    · exact absurd heq (by decide)
    · rfl
    · exact absurd rfl (h' ▸ hj)
    · exact absurd rfl (h ▸ hi)
    · exact absurd rfl (h ▸ hi)
    · exact absurd rfl (h ▸ hi)
  · rcases hcases i with rfl | rfl | h
    · decide
    · decide
    · rw [h]
      decide

/-- **Orderly runs**: no process sleeps in `Wait` with a zombie among its children, a process in
`Wait` has a child, and `Wait` without children returns `ECHILD`. -/
theorem noneLeft_run (h : Runs Step (fun s e => e.Orderly s) started s) :
    NoneLeft s.pm ∧
    (∀ p, s.waiting p ≠ none → ∃ i, (s.proc i).pPpid = (s.proc p).pPid) ∧
    (∀ p, s.Active p → (∀ i, (s.proc i).pPpid ≠ (s.proc p).pPid) →
      ((s.wait p).user p).uError = .ECHILD) := by
  have hfamily : Family s := h.invariant (fun _ _ _ hs ho hstep => hs.step ho hstep) family_started
  exact ⟨hfamily.noneLeft, fun p hp => (hfamily.parent p hp).child, fun p _ => wait_error⟩

/-- Process 1 makes process 2, which ends. -/
theorem noneLeft_run_fork : NoneLeft ((started.fork 1).exit 2).pm := by
  have hfork : Runs Step (fun s e => e.Orderly s) started (started.fork 1) :=
    .single (l := .fork 1) ⟨by decide, by decide +kernel⟩ ⟨.of_test (by decide +kernel), rfl⟩
  have hexit : Runs Step (fun s e => e.Orderly s) started ((started.fork 1).exit 2) :=
    hfork.tail (l := .exit 2) (.inl (by decide +kernel)) ⟨.of_test (by decide +kernel), rfl⟩
  exact (noneLeft_run hexit).1

/-- Processes 1 to 4, each the child of the one before; process 4 has ended, and process 1 sleeps
in `Wait`. -/
def generations : System := ((((started.fork 1).fork 2).fork 3).exit 4).wait 1

/-- When process 3 ends, process 1 gets the zombie and sleeps on. -/
theorem not_noneLeft : ∃ s, Runs Step (fun _ _ => True) started s ∧ ¬NoneLeft s.pm := by
  have hgen : Runs Step (fun _ _ => True) started generations :=
    .tail (l := .wait 1)
      (.tail (l := .exit 4)
        (.tail (l := .fork 3)
          (.tail (l := .fork 2)
            (.single (l := .fork 1) trivial ⟨.of_test (by decide +kernel), rfl⟩)
            trivial ⟨.of_test (by decide +kernel), rfl⟩)
          trivial ⟨.of_test (by decide +kernel), rfl⟩)
        trivial ⟨.of_test (by decide +kernel), rfl⟩)
      trivial ⟨.of_test (by decide +kernel), rfl⟩
  refine ⟨generations.exit 3, hgen.tail (l := .exit 3) trivial
    ⟨.of_test (by decide +kernel), rfl⟩, fun hnone => ?_⟩
  exact hnone 1 4 (by decide +kernel) (by decide +kernel) (by decide +kernel)

end Proc
end UnixV6pp
