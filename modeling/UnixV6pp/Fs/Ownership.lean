import UnixV6pp.Lib.Runs
import UnixV6pp.Fs.Bmap
import UnixV6pp.Fs.Truncate
import UnixV6pp.Fs.FreeRun

/-!
# Block ownership across files

The inodes of a device are mapped, truncated and given up in any order, and their
users write to the blocks and change the other fields in between.  No block ever
belongs to two places, and a block that was mapped stays where it is until its
inode is truncated.

## Main definitions

* `Files`, `Step` — the inodes of a device, and what happens to them.
* `Inv` — the invariant.

## Main results

* `Inv.bmap`, `Inv.itrunc`, `Inv.iput`, `Inv.write`, `Inv.other` — one event each.
* `ownership_run` — **every run** without a failing `Alloc`.
-/

namespace UnixV6pp
namespace Inode

open Words FileSystem IndexTree BufferManager

variable {ι : Type*}

/-- A device with the inodes on it. -/
structure Files (ι : Type*) where
  fs : FsState
  inodes : ι → Inode

/-- The trees of the inodes. -/
def Files.view (d : Files ι) : View ι := ⟨d.fs.blk, Inode.iAddr ∘ d.inodes⟩

theorem Files.addr_view (d : Files ι) (i : ι) : (d.inodes i).iAddr = d.view.addr i := rfl

/-- How many inodes the inode zone holds. -/
def inodeCount : ℤ := 8 * (1024 - 202)

variable [DecidableEq ι]

/-- The state with the inode `i` changed. -/
def Files.set (d : Files ι) (fs' : FsState) (i : ι) (ino' : Inode) : Files ι :=
  ⟨fs', Function.update d.inodes i ino'⟩

section Set

variable (d : Files ι) (i : ι) (ino₁ ino₂ : Inode) (s₁ s₂ : FsState)

@[simp] theorem Files.fs_set : (d.set s₁ i ino₁).fs = s₁ := rfl

@[simp] theorem Files.inodes_set_self : (d.set s₁ i ino₁).inodes i = ino₁ := Function.update_self ..

theorem Files.inodes_set_of_ne {j : ι} (h : j ≠ i) : (d.set s₁ i ino₁).inodes j = d.inodes j :=
  Function.update_of_ne h ..

@[simp] theorem Files.set_set : (d.set s₁ i ino₁).set s₂ i ino₂ = d.set s₂ i ino₂ := by
  simp only [Files.set, Function.update_idem]

/-- The trees after one inode was changed. -/
theorem Files.view_set :
    (d.set s₁ i ino₁).view = ⟨s₁.blk, Function.update d.view.addr i ino₁.iAddr⟩ := by
  rw [Files.view, Files.view, Files.set, Function.comp_update]

/-- What holds of every inode holds of it after one was changed. -/
theorem Files.forall_set {p : Inode → Prop} (h : ∀ j, p (d.inodes j)) (h' : p ino₁) (j : ι) :
    p ((d.set s₁ i ino₁).inodes j) := by
  by_cases hj : j = i
  · subst hj
    rw [Files.inodes_set_self]
    exact h'
  · rw [Files.inodes_set_of_ne d i ino₁ s₁ hj]
    exact h j

end Set

/-- What happens to the files of a device. -/
inductive Event (ι : Type*)
  /-- `Bmap` of a logical block, with what it returns. -/
  | bmap (i : ι) (lbn : ℕ) (ret : ℤ)
  | itrunc (i : ι)
  | iput (i : ι)
  /-- The contents of a logical block are overwritten. -/
  | write (i : ι) (lbn : ℕ)
  /-- Other fields of an inode change. -/
  | other (i : ι)

/-- One event: a call that returns, and in which no `Alloc` failed. -/
inductive Step : Files ι → Event ι → Files ι → Prop
  | bmap {d : Files ι} {i : ι} {lbn : ℕ} {ret : ℤ} {ino' : Inode} {fs' : FsState}
      (h : Inode.bmap d.fs (d.inodes i) lbn = .ok (ret, ino', fs'))
      (hspace : fs'.uError ≠ .ENOSPC) :
      Step d (.bmap i lbn ret) (d.set fs' i ino')
  | itrunc {d : Files ι} {i : ι} {buffer : ℤ → Block} {ino' : Inode} {fs' : FsState}
      (h : Inode.itrunc buffer d.fs (d.inodes i) = .ok (ino', fs')) :
      Step d (.itrunc i) (d.set fs' i ino')
  | iput {d : Files ι} {i : ι} {buffer : ℤ → Block} {time : ℤ} {ino' : Inode} {fs' : FsState}
      (h : Inode.iput buffer d.fs (d.inodes i) time = .ok (ino', fs')) :
      Step d (.iput i) (d.set fs' i ino')
  | write {d : Files ι} {i : ι} {lbn : ℕ} {data : Block} (hlbn : lbn < 33030)
      (h : d.view.block i lbn ≠ 0) :
      Step d (.write i lbn)
        ⟨{ d.fs with blk := Function.update d.fs.blk (d.view.block i lbn) data }, d.inodes⟩
  | other {d : Files ι} {i : ι} {ino' : Inode} (haddr : ino'.iAddr = (d.inodes i).iAddr)
      (hmode : ino'.isDevice = (d.inodes i).isDevice) (hnumber : ino'.iNumber < inodeCount) :
      Step d (.other i) (d.set d.fs i ino')

/-- The events that give up the blocks of an inode. -/
def Event.Truncates (d : Files ι) (i : ι) : Event ι → Prop
  | .itrunc j => j = i
  | .iput j => j = i ∧ (d.inodes i).iCount = 1 ∧ (d.inodes i).iNlink ≤ 0
  | _ => False

/-- **The invariant**: the trees are apart from each other and from the free list. -/
structure Inv (d : Files ι) (L : List ℤ) : Prop where
  sound : Sound d.fs d.view.addr L
  /-- No inode is that of a device, whose `i_addr` names no blocks. -/
  plain : ∀ i, (d.inodes i).isDevice = false
  /-- The numbers of the inodes stay in the inode zone. -/
  number_lt : ∀ i, (d.inodes i).iNumber < inodeCount

section Fields

variable {s s' : FsState} {addr : ι → ℕ → ℤ} {L : List ℤ}

omit [DecidableEq ι] in
/-- What leaves the data zone and the stack alone leaves the trees alone. -/
theorem Sound.of_data (h : Sound s addr L) (s' : FsState) (hnfree : s'.sb.sNfree = s.sb.sNfree)
    (hfree : s'.sb.sFree = s.sb.sFree) (hflock : s'.sb.sFlock = s.sb.sFlock)
    (hninode : s'.sb.sNinode ≤ 100) (hblk : ∀ b, DataBlock b → s'.blk b = s.blk b) :
    Sound s' addr L ∧ ∀ (u : ι × ℕ) q, IsPath u.2 q →
      (⟨s'.blk, addr⟩ : View ι).at u q = (⟨s.blk, addr⟩ : View ι).at u q := by
  have hat : ∀ (u : ι × ℕ) q, IsPath u.2 q →
      (⟨s'.blk, addr⟩ : View ι).at u q = (⟨s.blk, addr⟩ : View ι).at u q := by
    intro u q hq
    refine View.at_congr (I := fun _ => True) ?_ ?_ u q trivial hq
    · intro _ _
      rfl
    · intro u j q _ hjq hne
      exact hblk _ (h.apart.data u q hjq.tail hne)
  refine ⟨⟨?_, ?_, ?_⟩, hat⟩
  · exact h.freeList.of_stack hnfree hfree hflock hninode fun b hb => hblk b (h.freeList.data b hb)
  · rw [hnfree]; exact h.nfree_ne
  · refine h.apart.shrink (fun u q hq => .inr (hat u q hq)) fun u q hq => ?_
    rw [hat u q hq]
    exact h.apart.unlisted u q hq

/-- `IFree` leaves the blocks and their stack alone. -/
theorem ifree_cases (h : FreeList s L) {number : ℤ} (heq : ifree s number = .ok s') :
    s'.blk = s.blk ∧ s'.sb.sNfree = s.sb.sNfree ∧ s'.sb.sFree = s.sb.sFree ∧
      s'.sb.sFlock = s.sb.sFlock ∧ s'.sb.sNinode ≤ 100 := by
  unfold ifree at heq
  simp only [h.getFS_eq] at heq
  have hle := h.ninode_le
  split at heq
  · cases heq
    exact ⟨rfl, rfl, rfl, rfl, hle⟩
  · split at heq
    · cases heq
      exact ⟨rfl, rfl, rfl, rfl, hle⟩
    · next hlt =>
      obtain ⟨sInode, -, hs⟩ := Except.bind_eq_ok.mp heq
      cases hs
      exact ⟨rfl, rfl, rfl, rfl, by change s.sb.sNinode + 1 ≤ 100; omega⟩

/-- `IUpdate` writes a sector of the inode zone. -/
theorem iupdate_cases (h : FreeList s L) {ino : Inode} (hnumber : ino.iNumber < inodeCount)
    {time : ℤ} (heq : iupdate s ino time = .ok s') :
    s'.sb = s.sb ∧ ∀ b, DataBlock b → s'.blk b = s.blk b := by
  unfold iupdate at heq
  simp only [h.getFS_eq] at heq
  split at heq
  · cases heq
    exact ⟨rfl, fun _ _ => rfl⟩
  · split at heq
    · cases heq
      exact ⟨rfl, fun _ _ => rfl⟩
    · split at heq
      · cases heq
      · next hslot =>
        cases heq
        refine ⟨rfl, fun b hb => Function.update_of_ne ?_ _ _⟩
        have hb := hb.bounds
        have hdiv := Int.mul_tdiv_add_tmod ino.iNumber 8
        unfold inodeCount at hnumber
        change b ≠ inodeZoneStartSector + ino.iNumber.tdiv 8
        unfold inodeZoneStartSector
        omega

end Fields

variable {d d' : Files ι} {L : List ℤ} {i : ι} {ino' : Inode} {fs' : FsState}

/-- `Prele` changes flags only. -/
theorem prele_eq (ino : Inode) : ∃ iFlag', ino.prele = { ino with iFlag := iFlag' } := by
  unfold prele
  dsimp only
  split
  · exact ⟨_, rfl⟩
  · exact ⟨_, rfl⟩

/-- The blocks that stay where they are. -/
def Keeps (d d' : Files ι) (gone : ι → Prop) : Prop :=
  ∀ (u : ι × ℕ) q, IsPath u.2 q → ¬ gone u.1 → d.view.at u q ≠ 0 → d'.view.at u q = d.view.at u q

/-- **`Bmap`** maps the block, and no other changes its place. -/
theorem Inv.bmap (h : Inv d L) {lbn : ℕ} (hlbn : lbn < 33030) {ret : ℤ}
    (heq : Inode.bmap d.fs (d.inodes i) lbn = .ok (ret, ino', fs')) (hspace : fs'.uError ≠ .ENOSPC) :
    (∃ L', Inv (d.set fs' i ino') L') ∧
      ret ≠ 0 ∧ (d.set fs' i ino').view.block i lbn = ret ∧
      Keeps d (d.set fs' i ino') fun _ => False := by
  obtain ⟨r, ino₁, s₁, hbmap, hcase⟩ := bmap_spec h.sound (d.addr_view i) hlbn
  rw [hbmap] at heq
  cases heq
  obtain ⟨⟨iFlag', hsame⟩, -, hne, ⟨L', hsound⟩, hat, hext⟩ := hcase.resolve_left fun hfail => hspace hfail.2
  refine ⟨⟨L', ?_, ?_, ?_⟩, hne, ?_, ?_⟩
  · rw [Files.view_set]
    exact hsound
  · refine d.forall_set _ _ _ (p := fun ino => ino.isDevice = false) h.plain ?_
    rw [hsame]
    exact h.plain i
  · refine d.forall_set _ _ _ (p := fun ino => ino.iNumber < inodeCount) h.number_lt ?_
    rw [hsame]
    exact h.number_lt i
  · rw [Files.view_set]
    exact hat
  · intro u q hq _ hune
    rw [Files.view_set]
    exact hext.at_eq u q hq (.inl hune)

/-- **`ITrunc`** gives up the blocks of its inode and no others. -/
theorem Inv.itrunc (h : Inv d L) {buffer : ℤ → Block}
    (heq : Inode.itrunc buffer d.fs (d.inodes i) = .ok (ino', fs')) :
    (∃ L', Inv (d.set fs' i ino') L') ∧
      Keeps d (d.set fs' i ino') fun j => j = i := by
  obtain ⟨ino₁, s₁, htrunc, hino, -, hfs, hne, hblk⟩ :=
    itrunc_spec h.sound (d.addr_view i) (h.plain i) buffer
  rw [htrunc] at heq
  cases heq
  have hzero : ∀ k < 10, ino'.iAddr k = 0 := by
    intro k hk
    rw [hino]
    exact if_pos hk
  obtain ⟨hsound, hat⟩ := h.sound.trunc hfs hne hblk hzero
  refine ⟨⟨_, by rw [Files.view_set]; exact hsound, ?_, ?_⟩, ?_⟩
  · refine d.forall_set _ _ _ (p := fun ino => ino.isDevice = false) h.plain ?_
    rw [hino]
    exact h.plain i
  · refine d.forall_set _ _ _ (p := fun ino => ino.iNumber < inodeCount) h.number_lt ?_
    rw [hino]
    exact h.number_lt i
  · intro u q hq hu _
    rw [Files.view_set, hat u q hq, if_neg hu]
    rfl

omit [DecidableEq ι] in
theorem Keeps.mono {gone gone' : ι → Prop} (h : Keeps d d' gone) (hgone : ∀ j, gone j → gone' j) :
    Keeps d d' gone' :=
  fun u q hq hu hne => h u q hq (fun hg => hu (hgone u.1 hg)) hne

omit [DecidableEq ι] in
/-- Events that follow one another. -/
theorem Keeps.trans {d'' : Files ι} {gone : ι → Prop} (h : Keeps d d' gone)
    (h' : Keeps d' d'' gone) : Keeps d d'' gone := by
  intro u q hq hu hne
  have h1 := h u q hq hu hne
  exact (h' u q hq hu (h1.trans_ne hne)).trans h1

/-- What changes neither the numbers of an inode nor the blocks and their stack. -/
theorem Inv.same (h : Inv d L) (hsound : Sound fs' d.view.addr L)
    (hat : ∀ (u : ι × ℕ) q, IsPath u.2 q →
      (⟨fs'.blk, d.view.addr⟩ : View ι).at u q = d.view.at u q)
    (haddr : ino'.iAddr = (d.inodes i).iAddr) (hdev : ino'.isDevice = false)
    (hnumber : ino'.iNumber < inodeCount) :
    Inv (d.set fs' i ino') L ∧
      Keeps d (d.set fs' i ino') fun _ => False := by
  have hview : ((d.set fs' i ino') : Files ι).view = ⟨fs'.blk, d.view.addr⟩ := by
    have heq : ino'.iAddr = d.view.addr i := haddr
    rw [Files.view_set, heq, Function.update_eq_self]
  refine ⟨⟨?_, ?_, ?_⟩, ?_⟩
  · rw [hview]
    exact hsound
  · exact d.forall_set _ _ _ (p := fun ino => ino.isDevice = false) h.plain hdev
  · exact d.forall_set _ _ _ (p := fun ino => ino.iNumber < inodeCount) h.number_lt hnumber
  · intro u q hq _ _
    rw [hview]
    exact hat u q hq

/-- Other fields of an inode change. -/
theorem Inv.other (h : Inv d L) (haddr : ino'.iAddr = (d.inodes i).iAddr)
    (hdev : ino'.isDevice = false) (hnumber : ino'.iNumber < inodeCount) :
    Inv (d.set d.fs i ino') L ∧
      Keeps d (d.set d.fs i ino') fun _ => False :=
  h.same h.sound (fun _ _ _ => rfl) haddr hdev hnumber

/-- Putting the inode number on the free list changes no tree. -/
theorem Inv.ifree (h : Inv d L) {number : ℤ} (haddr : ino'.iAddr = (d.inodes i).iAddr)
    (hdev : ino'.isDevice = false) (hnumber : ino'.iNumber < inodeCount)
    (heq : FileSystem.ifree d.fs number = .ok fs') :
    Inv (d.set fs' i ino') L ∧
      Keeps d (d.set fs' i ino') fun _ => False := by
  obtain ⟨hblk, hnfree, hfree, hflock, hninode⟩ := ifree_cases h.sound.freeList heq
  obtain ⟨hsound, hat⟩ := h.sound.of_data fs' hnfree hfree hflock hninode fun b _ => by rw [hblk]
  exact h.same hsound hat haddr hdev hnumber

/-- Writing the inode back changes no tree. -/
theorem Inv.iupdate (h : Inv d L) {time : ℤ} {ino : Inode} (haddr : ino'.iAddr = (d.inodes i).iAddr)
    (hdev : ino'.isDevice = false) (hnumber : ino'.iNumber < inodeCount)
    (hnumber₀ : ino.iNumber < inodeCount) (heq : Inode.iupdate d.fs ino time = .ok fs') :
    Inv (d.set fs' i ino') L ∧
      Keeps d (d.set fs' i ino') fun _ => False := by
  obtain ⟨hsb, hblk⟩ := iupdate_cases h.sound.freeList hnumber₀ heq
  obtain ⟨hsound, hat⟩ := h.sound.of_data fs' (by rw [hsb]) (by rw [hsb]) (by rw [hsb])
    (hsb ▸ h.sound.freeList.ninode_le) hblk
  exact h.same hsound hat haddr hdev hnumber

/-- **An inode without a name is discarded** with its blocks. -/
theorem Inv.discard (h : Inv d L) {buffer : ℤ → Block}
    (heq : Inode.discard buffer d.fs (d.inodes i) = .ok (ino', fs')) :
    (∃ L', Inv (d.set fs' i ino') L') ∧
      Keeps d (d.set fs' i ino') fun j => j = i ∧ (d.inodes i).iNlink ≤ 0 := by
  unfold Inode.discard at heq
  split at heq
  · next hlink =>
    obtain ⟨⟨ino₂, s₂⟩, htrunc, hrest⟩ := Except.bind_eq_ok.mp heq
    obtain ⟨s₃, hifree, hfin⟩ := Except.bind_eq_ok.mp hrest
    cases hfin
    obtain ⟨⟨L₂, h₂⟩, hk₂⟩ := h.itrunc htrunc
    have hnumber := h₂.number_lt i
    rw [Files.inodes_set_self] at hnumber
    have hmode : isDevice { ino₂ with iMode := 0 } = false := by simp [isDevice]
    have haddr : ({ ino₂ with iMode := 0 } : Inode).iAddr = ((d.set s₂ i ino₂).inodes i).iAddr := by
      rw [Files.inodes_set_self]
    obtain ⟨h₃, hk₃⟩ := h₂.ifree haddr hmode hnumber hifree
    rw [Files.set_set] at h₃ hk₃
    refine ⟨⟨L₂, h₃⟩, ?_⟩
    exact (hk₂.mono fun _ hj => ⟨hj, hlink⟩).trans (hk₃.mono fun _ => False.elim)
  · cases heq
    obtain ⟨h', hk⟩ := h.other rfl (h.plain i) (h.number_lt i)
    exact ⟨⟨L, h'⟩, hk.mono fun _ => False.elim⟩

/-- **The last reference goes.** -/
theorem Inv.release (h : Inv d L) {buffer : ℤ → Block} {time : ℤ}
    (heq : Inode.release buffer d.fs (d.inodes i) time = .ok (ino', fs')) :
    (∃ L', Inv (d.set fs' i ino') L') ∧ Keeps d (d.set fs' i ino')
      fun j => j = i ∧ (d.inodes i).iCount = 1 ∧ (d.inodes i).iNlink ≤ 0 := by
  unfold Inode.release at heq
  split at heq
  · next hcount =>
    obtain ⟨⟨ino₂, s₂⟩, hdiscard, hrest⟩ := Except.bind_eq_ok.mp heq
    obtain ⟨s₃, hupd, hfin⟩ := Except.bind_eq_ok.mp hrest
    obtain ⟨iFlag', hprele⟩ := prele_eq ino₂
    rw [hprele] at hfin
    cases hfin
    -- the inode is locked first
    set locked : Inode := { d.inodes i with iFlag := (d.inodes i).iFlag ||| ILOCK } with hlocked
    obtain ⟨h₁, hk₁⟩ : Inv (d.set d.fs i locked) L ∧ Keeps d (d.set d.fs i locked) fun _ => False :=
      h.other rfl (h.plain i) (h.number_lt i)
    rw [← Files.inodes_set_self d i locked d.fs] at hdiscard
    obtain ⟨⟨L₂, h₂⟩, hk₂⟩ := h₁.discard hdiscard
    rw [Files.inodes_set_self, Files.set_set] at hk₂
    rw [Files.set_set] at h₂
    have hnumber := h₂.number_lt i
    have hplain := h₂.plain i
    rw [Files.inodes_set_self] at hnumber hplain
    have haddr : ({ ino₂ with iFlag := 0, iNumber := -1 } : Inode).iAddr =
        ((d.set s₂ i ino₂).inodes i).iAddr := by
      rw [Files.inodes_set_self]
    have hminus : (-1 : ℤ) < inodeCount := by decide
    obtain ⟨h₃, hk₃⟩ := h₂.iupdate haddr hplain hminus hnumber hupd
    rw [Files.set_set] at h₃ hk₃
    refine ⟨⟨L₂, h₃⟩, ?_⟩
    refine ((hk₁.mono fun _ => False.elim).trans (hk₂.mono ?_)).trans (hk₃.mono fun _ => False.elim)
    intro j hj
    exact ⟨hj.1, hcount, hj.2⟩
  · cases heq
    obtain ⟨h', hk⟩ := h.other rfl (h.plain i) (h.number_lt i)
    exact ⟨⟨L, h'⟩, hk.mono fun _ => False.elim⟩

/-- **`IPut`** gives up blocks only with the last reference and the last name. -/
theorem Inv.iput (h : Inv d L) {buffer : ℤ → Block} {time : ℤ}
    (heq : Inode.iput buffer d.fs (d.inodes i) time = .ok (ino', fs')) :
    (∃ L', Inv (d.set fs' i ino') L') ∧ Keeps d (d.set fs' i ino')
      fun j => j = i ∧ (d.inodes i).iCount = 1 ∧ (d.inodes i).iNlink ≤ 0 := by
  unfold Inode.iput at heq
  obtain ⟨⟨ino₁, s₁⟩, hrelease, hfin⟩ := Except.bind_eq_ok.mp heq
  cases hfin
  obtain ⟨⟨L₁, h₁⟩, hk₁⟩ := h.release hrelease
  have hnumber := h₁.number_lt i
  have hplain := h₁.plain i
  rw [Files.inodes_set_self] at hnumber hplain
  obtain ⟨iFlag', hprele⟩ := prele_eq { ino₁ with iCount := ino₁.iCount - 1 }
  rw [hprele]
  have haddr : ({ ino₁ with iCount := ino₁.iCount - 1, iFlag := iFlag' } : Inode).iAddr =
      ((d.set fs' i ino₁).inodes i).iAddr := by
    rw [Files.inodes_set_self]
  obtain ⟨h₂, hk₂⟩ := h₁.other haddr hplain hnumber
  rw [Files.set_set] at h₂ hk₂
  exact ⟨⟨L₁, h₂⟩, hk₁.trans (hk₂.mono fun _ => False.elim)⟩

omit [DecidableEq ι] in
/-- **Overwriting a data block** leaves all blocks where they are. -/
theorem Inv.write (h : Inv d L) {lbn : ℕ} (hlbn : lbn < 33030) (hne : d.view.block i lbn ≠ 0)
    (data : Block) :
    Inv ⟨{ d.fs with blk := Function.update d.fs.blk (d.view.block i lbn) data }, d.inodes⟩ L ∧
      Keeps d ⟨{ d.fs with blk := Function.update d.fs.blk (d.view.block i lbn) data }, d.inodes⟩
        fun _ => False := by
  obtain ⟨hP, hlen⟩ := isPath_lbnPath hlbn
  have hwrite := h.sound.write (t := (i, (lbnPath lbn).1)) hP hlen hne rfl data
  exact ⟨⟨hwrite.1, h.plain, h.number_lt⟩, fun u q hq _ _ => hwrite.2 u q hq⟩

/-- A logical block past the largest file is refused. -/
theorem bmap_refused (s : FsState) (ino : Inode) {lbn : ℕ} (h : 33030 ≤ lbn) :
    Inode.bmap s ino lbn = .ok (0, ino, { s with uError := .EFBIG }) := by
  unfold Inode.bmap
  rw [if_pos (by unfold hugeFileBlock; omega)]
  rfl

/-- **One event** keeps the invariant, and the blocks of the inodes it does not truncate. -/
theorem Inv.step (h : Inv d L) {e : Event ι} (hstep : Step d e d') :
    (∃ L', Inv d' L') ∧ Keeps d d' fun j => e.Truncates d j := by
  cases hstep with
  | @bmap i lbn ret ino' fs' heq hspace =>
    by_cases hlbn : lbn < 33030
    · obtain ⟨h', -, -, hk⟩ := h.bmap hlbn heq hspace
      exact ⟨h', hk.mono fun _ => False.elim⟩
    · rw [bmap_refused _ _ (by omega)] at heq
      cases heq
      obtain ⟨hsound, hat⟩ := h.sound.of_data { d.fs with uError := .EFBIG } rfl rfl rfl
        h.sound.freeList.ninode_le fun _ _ => rfl
      obtain ⟨h', hk⟩ := h.same hsound hat rfl (h.plain i) (h.number_lt i)
      exact ⟨⟨L, h'⟩, hk.mono fun _ => False.elim⟩
  | itrunc heq =>
    obtain ⟨h', hk⟩ := h.itrunc heq
    exact ⟨h', hk.mono fun _ hj => hj.symm⟩
  | iput heq =>
    obtain ⟨h', hk⟩ := h.iput heq
    refine ⟨h', hk.mono ?_⟩
    intro j hj
    obtain ⟨rfl, hcount, hlink⟩ := hj
    exact ⟨rfl, hcount, hlink⟩
  | write hlbn hne =>
    obtain ⟨h', hk⟩ := h.write hlbn hne _
    exact ⟨⟨L, h'⟩, hk.mono fun _ => False.elim⟩
  | @other i ino' haddr hmode hnumber =>
    obtain ⟨h', hk⟩ := h.other haddr (hmode.trans (h.plain i)) hnumber
    exact ⟨⟨L, h'⟩, hk.mono fun _ => False.elim⟩

/-- A mapped block stays where it is while its inode is not truncated. -/
theorem Inv.stays {L₀ : List ℤ} (h₀ : Inv d L₀) {lbn : ℕ} (hlbn : lbn < 33030) {b : ℤ} (hb : b ≠ 0)
    (hblock : d.view.block i lbn = b)
    (hrun : Runs Step (fun d e => ¬ e.Truncates d i) d d') :
    (∃ L, Inv d' L) ∧ d'.view.block i lbn = b := by
  refine hrun.invariant (I := fun d => (∃ L, Inv d L) ∧ d.view.block i lbn = b) ?_
    ⟨⟨L₀, h₀⟩, hblock⟩
  intro s e s' hs hok hstep
  obtain ⟨⟨L, hL⟩, hs⟩ := hs
  obtain ⟨hL', hk⟩ := hL.step hstep
  refine ⟨hL', ?_⟩
  have hat := hk (i, (lbnPath lbn).1) (lbnPath lbn).2 (isPath_lbnPath hlbn).1 hok (hs.trans_ne hb)
  exact hat.trans hs

/-- **Block ownership over a whole run.**  In every state reached without a failing
`Alloc`: distinct logical blocks have distinct physical blocks; an index block is
no other block of any inode; no block of an inode is free; `Bmap` returns, with the
block it has mapped; and it returns the same block again as long as the inode is
not truncated. -/
theorem ownership_run {d₀ : Files ι} {L₀ : List ℤ} (h₀ : Inv d₀ L₀)
    (hrun : Runs Step (fun _ _ => True) d₀ d) :
    (∀ i j lbn lbn', lbn < 33030 → lbn' < 33030 → d.view.block i lbn ≠ 0 →
      d.view.block i lbn = d.view.block j lbn' → i = j ∧ lbn = lbn') ∧
    (∀ (t u : ι × ℕ) p q, IsPath t.2 p → IsPath u.2 q → p.length < depth t.2 → d.view.at t p ≠ 0 →
      d.view.at t p = d.view.at u q → t = u ∧ p = q) ∧
    (∃ L, FreeList d.fs L ∧ ∀ (t : ι × ℕ) p, IsPath t.2 p → d.view.at t p ∉ L) ∧
    (∀ i (lbn : ℕ), lbn < 33030 → ∃ ret ino' fs', Inode.bmap d.fs (d.inodes i) lbn = .ok (ret, ino', fs') ∧
      (fs'.uError ≠ .ENOSPC → ret ≠ 0 ∧ (d.set fs' i ino').view.block i lbn = ret)) ∧
    (∀ i (lbn : ℕ) ret ret' d₁ d₂ d₃, lbn < 33030 → Step d (.bmap i lbn ret) d₁ →
      Runs Step (fun d e => ¬ e.Truncates d i) d₁ d₂ → Step d₂ (.bmap i lbn ret') d₃ →
      ret' = ret) := by
  obtain ⟨L, hL⟩ : ∃ L, Inv d L := by
    refine hrun.invariant (I := fun d => ∃ L, Inv d L) ?_ ⟨L₀, h₀⟩
    intro s e s' hs _ hstep
    obtain ⟨L, hL⟩ := hs
    exact (hL.step hstep).1
  refine ⟨?_, ?_, ⟨L, hL.sound.freeList, hL.sound.apart.unlisted⟩, ?_, ?_⟩
  · intro i j lbn lbn' hlbn hlbn' hne heq
    obtain ⟨htree, hpath⟩ := hL.sound.apart.owned (i, (lbnPath lbn).1) _ (j, (lbnPath lbn').1) _
      (isPath_lbnPath hlbn).1 (isPath_lbnPath hlbn').1 hne heq
    obtain ⟨hij, hk⟩ := Prod.mk.inj htree
    exact ⟨hij, lbnPath_inj hlbn hlbn' (Prod.ext hk hpath)⟩
  · intro t u p q hp hq _ hne heq
    exact hL.sound.apart.owned t p u q hp hq hne heq
  · intro i lbn hlbn
    obtain ⟨ret, ino', fs', hbmap, -⟩ :=
      bmap_spec hL.sound (d.addr_view i) hlbn
    refine ⟨ret, ino', fs', hbmap, fun hspace => ?_⟩
    obtain ⟨-, hne, hblock, -⟩ := hL.bmap hlbn hbmap hspace
    exact ⟨hne, hblock⟩
  · intro i lbn ret ret' d₁ d₂ d₃ hlbn hstep hrun' hstep'
    cases hstep with
    | bmap heq hspace =>
      obtain ⟨⟨L₁, h₁⟩, hne, hblock, -⟩ := hL.bmap hlbn heq hspace
      obtain ⟨⟨L₂, h₂⟩, hblock₂⟩ := h₁.stays hlbn hne hblock hrun'
      cases hstep' with
      | bmap heq' hspace' =>
        obtain ⟨-, -, hblock₃, hk⟩ := h₂.bmap hlbn heq' hspace'
        have hat := hk (i, (lbnPath lbn).1) (lbnPath lbn).2 (isPath_lbnPath hlbn).1 id
          (hblock₂.trans_ne hne)
        exact hblock₃.symm.trans (hat.trans hblock₂)

/-! ### An empty file on a device of one block -/

/-- An inode that names no block. -/
def empty : Inode where
  iFlag := 0
  iMode := 0
  iCount := 1
  iNlink := 1
  iNumber := 0
  iUid := 0
  iGid := 0
  iSize := 0
  iAddr := fun _ => 0
  iLastr := -1

/-- One empty file and one free block. -/
def oneFile : Files Unit := ⟨oneBlock.fs, fun _ => empty⟩

theorem inv_oneFile : Inv oneFile [1024] := by
  have hat : ∀ (t : Unit × ℕ) p, oneFile.view.at t p = 0 := fun t p => walk_zero p
  have hplain : empty.isDevice = false := by decide
  have hnumber : empty.iNumber < inodeCount := by decide
  refine ⟨⟨partition_oneBlock.freeList, by decide, ⟨?_, ?_, ?_⟩⟩, fun _ => hplain,
    fun _ => hnumber⟩
  · intro t p u q _ _ hne
    exact absurd (hat t p) hne
  · intro t p _ hne
    exact absurd (hat t p) hne
  · intro t p _
    change oneFile.view.at t p ∉ _
    rw [hat]
    simp

/-- The first block of the file takes the free block. -/
theorem ownership_run_oneFile : ∃ ino' fs', Inode.bmap oneFile.fs empty 0 = .ok (1024, ino', fs') ∧
    (oneFile.set fs' () ino').view.block () 0 = 1024 := by
  obtain ⟨-, -, -, hbmap, -⟩ := ownership_run inv_oneFile (Runs.refl oneFile)
  obtain ⟨ret, ino', fs', heq, h⟩ := hbmap () 0 (by decide)
  have hret : ∃ ino₁ fs₁, Inode.bmap oneFile.fs empty 0 = .ok (1024, ino₁, fs₁) ∧
    fs₁.uError = .NOERROR := ⟨_, _, rfl, rfl⟩
  obtain ⟨ino₁, fs₁, heq₁, herr⟩ := hret
  cases heq.symm.trans heq₁
  exact ⟨ino', fs', heq₁, (h (by rw [herr]; decide)).2⟩

end Inode
end UnixV6pp
