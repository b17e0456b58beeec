import UnixV6pp.Fs.Calls

/-!
# What an entry of the inode table stands for

A process that `IGet` has given an inode relies on it until it gives the inode back: the
entry keeps its device and number, and no other entry in use has the same.

`UpdateInodeTable` locks entries to which it holds no reference and unlocks them after it
has written them out.  When another process began to give back the last reference in the
meantime, that unlocks an inode which is just being torn down.

* `TableCall` — the calls.
* `identity_run` — **as long as that does not happen, entries are what they were.**
* `identity_sync` — and when it does, an inode is lost to its holder.
-/

namespace UnixV6pp

open Threads Kernel Inode

namespace SystemCalls

variable {n : ℕ}

/-- What processes do with the table of inodes. -/
inductive TableCall
  | iGet (dev number : ℤ)
  | iPut (i : Slot)
  | iAlloc (dev : ℤ)
  | sync
  | prele (i : Slot)
  | nFlock (i : Slot)
  /-- The inode is changed, to be written out some time. -/
  | change (i : Slot) (mode : UInt32) (nlink : ℤ)

namespace TableCall

/-- Only who has a reference to an inode uses it. -/
def may (_ : Fin n) (t : TableCall) (l : Local) : Bool :=
  match t with
  | .iPut i | .prele i | .nFlock i | .change i _ _ => 0 < l.refs i
  | _ => true

def code (_ : Fin n) : TableCall → KCode n Unit
  | .iGet dev number => do
    let _ ← SystemCalls.iGet dev number
    pure ()
  | .iPut i => SystemCalls.iPut i .hand
  | .iAlloc dev => do
    let _ ← SystemCalls.iAlloc dev
    pure ()
  | .sync => updateInodeTable
  | .prele i => Code.perform (.prele i)
  | .nFlock i => SystemCalls.nFlock i
  | .change i mode nlink => Code.perform (.setFields i (IACC ||| IUPD) mode nlink)

end TableCall

/-- The processes that use the table of inodes. -/
def tableMachine (n : ℕ) : Machine (Fin n) (Kernel n) (Action n) TableCall :=
  machine TableCall.may TableCall.code

/-- `UpdateInodeTable` does not unlock an inode whose last reference is being given back. -/
def SyncApart (_ : Fin n) (s : Kernel n) : Action n → Prop
  | .syncPrele i => ∀ q src, (s.loc q).tearing ≠ some (i, src)
  | _ => True

/-- The entries of the table are what their holders were given. -/
structure Identity (s : Kernel n) : Prop where
  /-- At most one entry in use stands for an inode. -/
  unique : ∀ i j, 0 < (s.inode i).iCount → 0 < (s.inode j).iCount → s.ident i = s.ident j → i = j
  /-- An entry somebody has a reference to is in use and stands for the same inode as at first. -/
  held : ∀ p i, 0 < (s.loc p).refs i → 0 < (s.inode i).iCount ∧ s.ident i = (s.proc p).ids i

theorem Identity.of_valid {s : Kernel n} (h : s.Valid) : Identity s where
  unique i j hi hj := h.unique i j hi.ne' hj.ne'
  held p i hrefs := ⟨h.count_pos (.inl (.inl hrefs)), (h.known p i hrefs).symm⟩

/-- The calls need no further property of the tables. -/
theorem rules_true (ok : Fin n → Kernel n → Action n → Prop) : Rules False (fun _ => True) ok where
  step _ _ _ _ _ _ _ _ := trivial
  locked h := h.elim

section

variable {g g' : Process} {p : Fin n}

theorem Kept.tearing {E : Prop} (h : Kept E g g') : g'.loc.tearing = g.loc.tearing := by
  obtain ⟨J, rfl, -⟩ := h
  rfl

theorem Got.tearing {E : Prop} {i : Slot} (h : Got E g i g') : g'.loc.tearing = g.loc.tearing := by
  obtain ⟨J, rfl, -⟩ := h
  rfl

/-- Between two calls nobody is giving back a last reference. -/
theorem tableCall_spec (t : TableCall) (hg : InCall g) (hmay : TableCall.may p t g.loc = true) :
    KSpec (fun _ => True) SyncApart p g (TableCall.code p t) fun _ g' => g'.loc.tearing = none := by
  have hR := @rules_true n SyncApart
  cases t with
  | iGet dev number =>
    apply (iGet_spec hR hg).bind
    rintro r g' ⟨hr, -⟩
    apply Spec.ret
    cases r with
    | none => exact hr.tearing.trans hg.tearing
    | some i => exact hr.tearing.trans hg.tearing
  | iPut i =>
    have hrefs : 0 < g.loc.refs i := of_decide_eq_true hmay
    apply (iPut_spec hR hg hrefs).mono
    rintro _ g' rfl
    exact hg.tearing
  | iAlloc dev =>
    apply (iAlloc_spec hR hg).bind
    intro r g' hr
    apply Spec.ret
    cases r with
    | none => exact hr.tearing.trans hg.tearing
    | some i => exact hr.tearing.trans hg.tearing
  | sync =>
    have hsync := @updateInodeTable_spec n False (fun _ => True) SyncApart p g hR (fun _ _ _ h => h)
      fun _ _ _ _ _ _ _ => trivial
    apply hsync.mono
    rintro _ g' rfl
    exact hg.tearing
  | prele i =>
    have hrefs : 0 < g.loc.refs i := of_decide_eq_true hmay
    apply (prele_spec hR hg (.inl (.inl hrefs)) False.elim).mono
    rintro _ g' rfl
    exact hg.tearing
  | nFlock i =>
    have hrefs : 0 < g.loc.refs i := of_decide_eq_true hmay
    apply (nFlock_spec hR (.inl hrefs)).mono
    rintro _ g' rfl
    exact hg.tearing
  | change i mode nlink =>
    have hset : KSpec (fun _ => True) SyncApart p g
        (Code.perform (.setFields i (IACC ||| IUPD) mode nlink)) fun _ g' => g' = g :=
      quiet_spec hR trivial (fun _ _ _ => trivial) fun _ => rfl
    apply hset.mono
    rintro _ g' rfl
    exact hg.tearing

end

/-- **As long as no inode is unlocked while it is torn down, entries are what their holders were
given**, in every run. -/
theorem identity_run {disk : ℤ → ℤ → DiskInode} {alive : Fin n → Bool}
    {c : Config (Fin n) (Kernel n) (Action n)}
    (hrun : (tableMachine n).Runs SyncApart (start disk alive) c) : Identity c.state := by
  have hrule := valid_run (Q := fun l => l.tearing = none) (rules_true SyncApart) trivial rfl ?_ hrun
  · exact .of_valid hrule.1.1
  · rintro p t l hmay hQ g hg rfl
    exact tableCall_spec t ⟨hg, hQ⟩ hmay

/-- `SyncApart`, as a test. -/
def syncApart (_ : Fin n) (s : Kernel n) : Action n → Bool
  | .syncPrele i => ∀ q, (s.loc q).tearing.map Prod.fst ≠ some i
  | _ => true

theorem SyncApart.of_test (p : Fin n) (s : Kernel n) (a : Action n) (h : syncApart p s a = true) :
    SyncApart p s a := by
  cases a with
  | syncPrele i =>
    intro q src hq
    apply of_decide_eq_true h q
    rw [hq]
    rfl
  | _ => trivial

/-- Process 0 uses inode 5 and gives it back, process 1 writes all inodes out, and process 2 gets
inode 5. -/
def beginPut : List (Turn (Fin 3) TableCall) :=
  [.call 0 (.iGet 0 5) [0, 1], .call 0 (.change 1 IALLOC 1) [], .call 0 (.prele 1) [],
    -- `UpdateInodeTable` has locked the inode and sleeps
    .call 1 .sync [1, 1, 1],
    -- the last reference is given back, behind the same lock
    .call 0 (.iPut 1) [1, 1]]

/-- In a run in which the inode is written out before the last reference is given back, all is as
it should be. -/
theorem identity_run_iPut : ∃ c, (tableMachine 3).Runs SyncApart
    (start (fun _ _ => ⟨IALLOC, 1⟩) fun _ => true) c ∧ (c.state.loc 0).tearing ≠ none ∧
      Identity c.state := by
  obtain ⟨c, hrun, htorn⟩ := (tableMachine 3).exists_run_of_play syncApart SyncApart.of_test
    beginPut (fun c => (c.state.loc 0).tearing ≠ none)
    (c := start (fun _ _ => ⟨IALLOC, 1⟩) fun _ => true) (by decide +kernel)
  exact ⟨c, hrun, htorn, identity_run hrun⟩

/-- Otherwise an inode can be taken from a process that has just got it. -/
theorem identity_sync : ∃ c, (tableMachine 3).Runs (fun _ _ _ => True)
    (start (fun _ _ => ⟨IALLOC, 1⟩) fun _ => true) c ∧ ¬Identity c.state := by
  obtain ⟨c, hrun, hrefs, hident⟩ := (tableMachine 3).exists_run_of_play (fun _ _ _ => true)
    (fun _ _ _ _ => trivial) (beginPut ++ [.run 1 [0], .call 2 (.iGet 0 5) [], .run 0 [0]])
    (fun c => 0 < (c.state.loc 2).refs 1 ∧ c.state.ident 1 ≠ (c.state.proc 2).ids 1)
    (c := start (fun _ _ => ⟨IALLOC, 1⟩) fun _ => true) (by decide +kernel)
  exact ⟨c, hrun, fun h => hident (h.held 2 1 hrefs).2⟩

end SystemCalls
end UnixV6pp
