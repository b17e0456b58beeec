import UnixV6pp.Lib.Flags
import UnixV6pp.Fs.CreatOver

/-!
# The table of in-core inodes

`IGet` finds the inode of a number in the table, or reads it into an entry that nobody refers to;
either way it adds a reference and locks the inode.  `IPut` takes a reference back and unlocks it,
and the last reference frees the entry.

* `InCore.iGet`, `InCore.iPut` — the calls.
* `Consistent` — no inode is in the table twice.
* `Balance` — what a call may change of the references and the locks.
* `Balance.iGet`, `Balance.iPut` — **one reference more, and one less.**
-/

namespace UnixV6pp

open FileSystem Inode Flags

/-- The table of in-core inodes, and the file system. -/
structure InCore where
  fs : FsState
  /-- `m_Inode[100]`. -/
  mInode : Slot → Inode

namespace InCore

variable (c : InCore)

/-- Change an entry, and the file system. -/
def set (i : Slot) (ino : Inode) (fs : FsState) : InCore := ⟨fs, Function.update c.mInode i ino⟩

/-- Set `u_error`. -/
def setError (error : ErrorCode) : InCore := { c with fs := { c.fs with uError := error } }

/-- `InodeTable::IsLoaded`. -/
def isLoaded (number : ℤ) : Option Slot :=
  (List.finRange 100).find? fun i => (c.mInode i).iNumber = number ∧ (c.mInode i).iCount ≠ 0

/-- `InodeTable::GetFreeInode`. -/
def getFreeInode : Option Slot := (List.finRange 100).find? fun i => (c.mInode i).iCount = 0

/-- `InodeTable::IGet`; a process that has to wait for the lock sleeps. -/
def iGet (number : ℤ) : Except Stop (Option Slot × InCore) :=
  match c.isLoaded number with
  | some i =>
    let ino := c.mInode i
    if ino.iFlag &&& ILOCK ≠ 0 then .error .sleeps
    else .ok (some i,
      c.set i { ino with iCount := ino.iCount + 1, iFlag := ino.iFlag ||| ILOCK } c.fs)
  | none =>
    match c.getFreeInode with
    | none => .ok (none, c.setError .ENFILE)
    | some i =>
      if number.tmod 8 < 0 then .error .outside
      else
        let ino := { c.mInode i with
          iNumber := number
          iFlag := ILOCK
          iCount := (c.mInode i).iCount + 1
          iLastr := -1 }
        .ok (some i, c.set i
          (icopy ino (c.fs.blk (inodeZoneStartSector + number.tdiv 8)) number) c.fs)

/-- `InodeTable::IPut`. -/
def iPut (buffer : ℤ → Block) (time : ℤ) (i : Slot) : Except Stop InCore := do
  let (ino, fs) ← iput buffer c.fs (c.mInode i) time
  return c.set i ino fs

/-- The references to an entry. -/
def count (i : Slot) : ℤ := (c.mInode i).iCount

/-- Whether an entry is locked. -/
def locked (i : Slot) : Bool := flag (c.mInode i).iFlag ILOCK

/-- The number of the inode in an entry. -/
def number (i : Slot) : ℤ := (c.mInode i).iNumber

section Set

variable {c} {i j : Slot} {ino : Inode} {fs : FsState}

@[simp] theorem mInode_set_self : (c.set i ino fs).mInode i = ino := Function.update_self _ _ _

theorem mInode_set_of_ne (h : j ≠ i) : (c.set i ino fs).mInode j = c.mInode j :=
  Function.update_of_ne h _ _

@[simp] theorem count_set_self : (c.set i ino fs).count i = ino.iCount :=
  congrArg iCount mInode_set_self

theorem count_set_of_ne (h : j ≠ i) : (c.set i ino fs).count j = c.count j :=
  congrArg iCount (mInode_set_of_ne h)

@[simp] theorem number_set_self : (c.set i ino fs).number i = ino.iNumber :=
  congrArg iNumber mInode_set_self

theorem number_set_of_ne (h : j ≠ i) : (c.set i ino fs).number j = c.number j :=
  congrArg iNumber (mInode_set_of_ne h)

@[simp] theorem locked_set_self : (c.set i ino fs).locked i = flag ino.iFlag ILOCK := by
  unfold locked
  rw [mInode_set_self]

theorem locked_set_of_ne (h : j ≠ i) : (c.set i ino fs).locked j = c.locked j := by
  unfold locked
  rw [mInode_set_of_ne h]

end Set

end InCore

/-! ### What `IPut` leaves of the entry -/

namespace Inode

variable {ino ino' : Inode} {s s' : FsState} {buffer : ℤ → Block} {time : ℤ}

/-- `Prele` unlocks. -/
theorem flag_prele (ino : Inode) : flag ino.prele.iFlag ILOCK = false := by
  have hclear : flag (ino.iFlag &&& ~~~ILOCK) ILOCK = false := flag_and_of_zero (by decide)
  unfold prele
  dsimp only
  split
  · exact (flag_and_of_eq (by decide)).trans hclear
  · exact hclear

theorem ifree_uError {n : ℤ} (h : ifree s n = .ok s') : s'.uError = s.uError := by
  unfold ifree at h
  dsimp only at h
  split at h
  · cases h
    rfl
  · split at h
    · cases h
      rfl
    · obtain ⟨sInode, -, h⟩ := Except.bind_eq_ok.mp h
      cases h
      rfl

/-- An inode without a name is discarded, but its entry of the table stays. -/
theorem discard_fields (h : discard buffer s ino = .ok (ino', s')) :
    s'.uError = s.uError ∧ ino'.iCount = ino.iCount := by
  unfold discard at h
  split at h
  · obtain ⟨⟨ino₁, s₁⟩, htrunc, h⟩ := Except.bind_eq_ok.mp h
    obtain ⟨s₂, hifree, h⟩ := Except.bind_eq_ok.mp h
    cases h
    cases hdev : ino.isDevice with
    | true =>
      rw [itrunc_device hdev] at htrunc
      cases htrunc
      exact ⟨ifree_uError hifree, rfl⟩
    | false =>
      obtain ⟨hquiet, -, -, hino⟩ := itrunc_fields hdev htrunc
      rw [hino]
      exact ⟨(ifree_uError hifree).trans hquiet.1, rfl⟩
  · cases h
    exact ⟨rfl, rfl⟩

/-- **`IPut`** takes one reference back, and the entry is unlocked. -/
theorem iput_fields (h : iput buffer s ino time = .ok (ino', s')) :
    s'.uError = s.uError ∧ ino'.iCount = ino.iCount - 1 ∧ flag ino'.iFlag ILOCK = false ∧
      (ino.iCount ≠ 1 → ino'.iNumber = ino.iNumber) := by
  unfold iput release at h
  obtain ⟨⟨ino₁, s₁⟩, hrelease, h⟩ := Except.bind_eq_ok.mp h
  obtain ⟨iFlag', hprele⟩ := prele_eq { ino₁ with iCount := ino₁.iCount - 1 }
  have hflag := flag_prele { ino₁ with iCount := ino₁.iCount - 1 }
  split at hrelease
  · next hone =>
    obtain ⟨⟨ino₂, s₂⟩, hdiscard, hrelease⟩ := Except.bind_eq_ok.mp hrelease
    obtain ⟨s₃, hupdate, hrelease⟩ := Except.bind_eq_ok.mp hrelease
    obtain ⟨herr, hcount⟩ := discard_fields hdiscard
    obtain ⟨iFlag₂, hprele₂⟩ := prele_eq ino₂
    cases hrelease
    cases h
    refine ⟨(FileManager.iupdate_uError hupdate).trans herr, ?_, hflag, fun hne => absurd hone hne⟩
    rw [hprele]
    change ino₂.prele.iCount - 1 = _
    rw [hprele₂]
    exact congrArg (· - 1) hcount
  · cases hrelease
    cases h
    refine ⟨rfl, ?_, hflag, fun _ => ?_⟩
    · rw [hprele]
    · rw [hprele]

end Inode

namespace InCore

/-- No inode is in the table twice. -/
structure Consistent (c : InCore) : Prop where
  count_nonneg : ∀ i, 0 ≤ c.count i
  distinct : ∀ i j, c.count i ≠ 0 → c.count j ≠ 0 → c.number i = c.number j → i = j

/-- With one inode in the table there is none twice. -/
theorem Consistent.of_root {c : InCore} (h : ∀ i, c.count i = if i = 0 then 1 else 0) :
    c.Consistent := by
  refine ⟨fun i => ?_, fun i j hi hj _ => ?_⟩
  · rw [h]
    split <;> decide
  · rw [h] at hi hj
    simp only [ne_eq, ite_eq_right_iff, one_ne_zero, imp_false, not_not] at hi hj
    rw [hi, hj]

/-- From `c` to `c'` one reference with its lock was taken, or none; the other entries in use keep
their references, locks and inodes. -/
structure Balance (c c' : InCore) (kept : Option Slot) : Prop where
  count_eq : ∀ j, c'.count j = c.count j + if kept = some j then 1 else 0
  locked_eq : ∀ j, c'.count j ≠ 0 → c'.locked j = if kept = some j then true else c.locked j
  number_eq : ∀ j, c.count j ≠ 0 → c'.number j = c.number j

variable {c c' c₀ : InCore} {i j : Slot} {buffer : ℤ → Block} {time n : ℤ}

theorem Balance.refl (c : InCore) : Balance c c none :=
  ⟨fun j => by simp, fun j _ => by simp, fun _ _ => rfl⟩

/-- The entry that `IsLoaded` finds. -/
theorem isLoaded_some (h : c.isLoaded n = some i) : c.number i = n ∧ c.count i ≠ 0 := by
  have hp := List.find?_some h
  exact of_decide_eq_true hp

theorem isLoaded_none (h : c.isLoaded n = none) (i : Slot) (hi : c.count i ≠ 0) : c.number i ≠ n := by
  intro hn
  have hall := List.find?_eq_none.mp h i (List.mem_finRange i)
  exact hall (decide_eq_true ⟨hn, hi⟩)

theorem isLoaded_eq (hc : c.Consistent) (hi : c.count i ≠ 0) (hn : c.number i = n) :
    c.isLoaded n = some i := by
  cases h : c.isLoaded n with
  | none => exact absurd hn (isLoaded_none h i hi)
  | some j =>
    obtain ⟨hj, hjc⟩ := isLoaded_some h
    rw [hc.distinct j i hjc hi (hj.trans hn.symm)]

theorem getFreeInode_some (h : c.getFreeInode = some i) : c.count i = 0 := by
  have hp := List.find?_some h
  exact of_decide_eq_true hp

/-- One reference to an entry is added or taken back, and the entry locked or unlocked. -/
theorem Balance.set {kept kept' : Option Slot} {ino : Inode} {fs : FsState} (h : Balance c₀ c kept)
    (hkept : ∀ j, j ≠ i → (kept' = some j ↔ kept = some j))
    (hcount : ino.iCount = c₀.count i + if kept' = some i then 1 else 0)
    (hlocked : ino.iCount ≠ 0 → flag ino.iFlag ILOCK = if kept' = some i then true else c₀.locked i)
    (hnumber : c₀.count i ≠ 0 → ino.iNumber = c₀.number i) : Balance c₀ (c.set i ino fs) kept' := by
  refine ⟨fun j => ?_, fun j hj => ?_, fun j hj => ?_⟩
  · by_cases hji : j = i
    · subst hji
      rw [count_set_self]
      exact hcount
    · rw [count_set_of_ne hji, h.count_eq j]
      simp only [hkept j hji]
  · by_cases hji : j = i
    · subst hji
      rw [count_set_self] at hj
      rw [locked_set_self]
      exact hlocked hj
    · rw [count_set_of_ne hji] at hj
      rw [locked_set_of_ne hji, h.locked_eq j hj]
      simp only [hkept j hji]
  · by_cases hji : j = i
    · subst hji
      rw [number_set_self]
      exact hnumber hj
    · rw [number_set_of_ne hji]
      exact h.number_eq j hj

theorem Consistent.set (hc : c.Consistent) {ino : Inode} {fs : FsState} (hcount : 0 ≤ ino.iCount)
    (hnumber : ino.iCount ≠ 0 → ∀ j, j ≠ i → c.count j ≠ 0 → c.number j ≠ ino.iNumber) :
    (c.set i ino fs).Consistent := by
  refine ⟨fun j => ?_, fun j k hj hk heq => ?_⟩
  · by_cases hji : j = i
    · subst hji
      rw [count_set_self]
      exact hcount
    · rw [count_set_of_ne hji]
      exact hc.count_nonneg j
  · by_cases hji : j = i
    · subst hji
      by_cases hkj : k = j
      · exact hkj.symm
      · rw [count_set_self] at hj
        rw [count_set_of_ne hkj] at hk
        rw [number_set_self, number_set_of_ne hkj] at heq
        exact absurd heq.symm (hnumber hj k hkj hk)
    · rw [count_set_of_ne hji] at hj
      rw [number_set_of_ne hji] at heq
      by_cases hki : k = i
      · subst hki
        rw [count_set_self] at hk
        rw [number_set_self] at heq
        exact absurd heq (hnumber hk j hji hj)
      · rw [count_set_of_ne hki] at hk
        rw [number_set_of_ne hki] at heq
        exact hc.distinct j k hj hk heq

/-- **`IGet`** takes one reference, or finds the table full. -/
theorem Balance.iGet (h : Balance c₀ c none) (hc : c.Consistent) {r : Option Slot}
    (heq : c.iGet n = .ok (r, c')) :
    Balance c₀ c' r ∧ c'.Consistent ∧
      (r = none → c'.fs.uError = .ENFILE ∧ c'.mInode = c.mInode) ∧
      ∀ i, r = some i → (c₀.count i ≠ 0 → c₀.locked i = false) ∧ c'.number i = n ∧
        c'.fs.uError = c.fs.uError := by
  have hsame : ∀ i, c.count i = c₀.count i := fun i => by simpa using h.count_eq i
  have hkept : ∀ i j : Slot, j ≠ i → (some i = some j ↔ (none : Option Slot) = some j) := by
    intro i j hji
    simp [Ne.symm hji]
  unfold InCore.iGet at heq
  cases hload : c.isLoaded n with
  | some i =>
    obtain ⟨hn, hcount⟩ := isLoaded_some hload
    rw [hload] at heq
    dsimp only at heq
    split at heq
    · cases heq
    · next hlock =>
      cases heq
      have hopen : c.locked i = false := by
        unfold locked flag
        rw [not_not.mp hlock]
        rfl
      refine ⟨h.set (hkept i) ?_ ?_ ?_, hc.set ?_ ?_, by simp, fun j hj => ?_⟩
      · rw [if_pos rfl, ← hsame]
        rfl
      · intro _
        rw [if_pos rfl]
        exact flag_or_right (by decide)
      · intro hi
        exact h.number_eq i hi
      · have hnonneg := hc.count_nonneg i
        change 0 ≤ c.count i + 1
        omega
      · intro _ j hji hj heq
        exact hji (hc.distinct j i hj hcount heq)
      · obtain rfl := Option.some.inj hj
        refine ⟨fun _ => ?_, ?_, rfl⟩
        · rw [← hopen, h.locked_eq i hcount]
          simp
        · rw [number_set_self]
          exact hn
  | none =>
    rw [hload] at heq
    dsimp only at heq
    cases hfree : c.getFreeInode with
    | none =>
      rw [hfree] at heq
      cases heq
      exact ⟨⟨h.count_eq, h.locked_eq, h.number_eq⟩, ⟨hc.count_nonneg, hc.distinct⟩,
        fun _ => ⟨rfl, rfl⟩, by simp⟩
    | some i =>
      rw [hfree] at heq
      dsimp only at heq
      have hzero := getFreeInode_some hfree
      have hzero₀ : c₀.count i = 0 := (hsame i).symm.trans hzero
      split at heq
      · cases heq
      · cases heq
        refine ⟨h.set (hkept i) ?_ ?_ ?_, hc.set ?_ ?_, by simp, fun j hj => ?_⟩
        · rw [if_pos rfl, ← hsame]
          rfl
        · intro _
          rw [if_pos rfl]
          change flag ILOCK ILOCK = true
          decide
        · intro hi
          exact absurd hzero₀ hi
        · change 0 ≤ c.count i + 1
          omega
        · intro _ j _ hj
          exact isLoaded_none hload j hj
        · obtain rfl := Option.some.inj hj
          exact ⟨fun hi => absurd hzero₀ hi, number_set_self, rfl⟩

/-- **`IPut`** gives it back. -/
theorem Balance.iPut (h : Balance c₀ c (some i)) (hc : c.Consistent) (h₀ : 0 ≤ c₀.count i)
    (hfree : c₀.count i ≠ 0 → c₀.locked i = false) (heq : c.iPut buffer time i = .ok c') :
    Balance c₀ c' none ∧ c'.Consistent ∧ c'.fs.uError = c.fs.uError := by
  have hcount : c.count i = c₀.count i + 1 := by simpa using h.count_eq i
  unfold InCore.iPut at heq
  obtain ⟨⟨ino, fs⟩, hput, heq⟩ := Except.bind_eq_ok.mp heq
  cases heq
  obtain ⟨herr, hcount', hflag, hnumber⟩ := iput_fields hput
  change ino.iCount = c.count i - 1 at hcount'
  have hcount₀ : ino.iCount = c₀.count i := by omega
  refine ⟨h.set ?_ ?_ ?_ ?_, hc.set ?_ ?_, herr⟩
  · intro j hji
    simp [Ne.symm hji]
  · rw [hcount₀]
    simp
  · intro hne
    rw [hflag, hfree (hcount₀ ▸ hne)]
    simp
  · intro hne
    have hone : (c.mInode i).iCount ≠ 1 := by
      change c.count i ≠ 1
      omega
    exact (hnumber hone).trans (h.number_eq i hne)
  · rw [hcount₀]
    exact h₀
  · intro hne j hji hj heq
    have hone : (c.mInode i).iCount ≠ 1 := by
      change c.count i ≠ 1
      omega
    rw [hnumber hone] at heq
    exact hji (hc.distinct j i hj (by omega) heq)

end InCore
end UnixV6pp
