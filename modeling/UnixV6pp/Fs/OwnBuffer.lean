import UnixV6pp.Lib.Runs
import UnixV6pp.Fs.ScanOnce

/-!
# Waiting for one's own buffer

A process that asks for a buffer it holds sleeps for ever.  `NameI` lets go of the
block in its hands before it reads the next one, but looks up the unit behind a free
record with the block of that record still in hand.

## Main definitions

* `WaitsForItself` — the turn of the inner loop that is taken next sleeps.
* `Visits` — the searches that a call of `NameI` goes through.

## Main results

* `scanStep_ownBuffer_iff` — **one turn.**
* `nameI_ownBuffer_iff` — **a call of `NameI`**, on any directories and paths.
-/

namespace UnixV6pp
namespace FileManager

open Words FileSystem Inode BufferManager DirectoryEntry Except

/-! ### What does not wait -/

section Spares

theorem spares_readAt (len : ℕ) (f : ℕ → ℤ) (i : ℤ) :
    Spares Stop.ownBuffer (readAt len f i) := by
  unfold readAt
  split
  · exact Spares.ok _ _
  · intro h
    cases h

theorem spares_allocBuf (s : FsState) : Spares Stop.ownBuffer (allocBuf s) := by
  unfold allocBuf
  refine Spares.bind ?_ fun _ => Spares.ok _ _
  unfold alloc
  dsimp only
  split
  · intro h
    cases h
  · refine Spares.bind (spares_readAt _ _ _) fun blkno => ?_
    split
    · exact Spares.ok _ _
    · split
      · exact Spares.ok _ _
      · exact Spares.ok _ _

theorem spares_firstTable (s : FsState) (ino : Inode) (index : ℤ) :
    Spares Stop.ownBuffer (firstTable s ino index) := by
  unfold firstTable
  refine Spares.bind (spares_readAt _ _ _) fun phyBlkno => ?_
  split
  · refine Spares.bind (spares_allocBuf s) fun r => ?_
    split
    · exact Spares.ok _ _
    · exact Spares.ok _ _
  · exact Spares.ok _ _

theorem spares_secondTable (s : FsState) (first : Buf) (index : ℤ) :
    Spares Stop.ownBuffer (secondTable s first index) := by
  unfold secondTable
  refine Spares.bind (spares_readAt _ _ _) fun phyBlkno => ?_
  split
  · refine Spares.bind (spares_allocBuf s) fun r => ?_
    split
    · exact Spares.ok _ _
    · exact Spares.ok _ _
  · exact Spares.ok _ _

theorem spares_lastTable (s : FsState) (table : Buf) (index : ℤ) :
    Spares Stop.ownBuffer (lastTable s table index) := by
  unfold lastTable
  refine Spares.bind (spares_readAt _ _ _) fun phyBlkno => ?_
  dsimp only
  split
  · exact Spares.bind (spares_allocBuf s) fun _ => Spares.ok _ _
  · exact Spares.ok _ _

/-- `Bmap` holds no block of the directory. -/
theorem spares_bmap (s : FsState) (ino : Inode) (lbn : ℤ) :
    Spares Stop.ownBuffer (bmap s ino lbn) := by
  unfold bmap
  split
  · exact Spares.ok _ _
  · split
    · unfold bmapDirect
      refine Spares.bind (spares_readAt _ _ _) fun phyBlkno => ?_
      dsimp only
      split
      · exact Spares.bind (spares_allocBuf s) fun _ => Spares.ok _ _
      · exact Spares.ok _ _
    · refine Spares.bind (spares_firstTable _ _ _) fun r => ?_
      split
      · exact Spares.ok _ _
      · dsimp only
        split
        all_goals
          split
          · refine Spares.bind (spares_secondTable _ _ _) fun r => ?_
            split
            · exact Spares.ok _ _
            · exact Spares.bind (spares_lastTable _ _ _) fun _ => Spares.ok _ _
          · rw [ok_bind]
            exact Spares.bind (spares_lastTable _ _ _) fun _ => Spares.ok _ _

theorem spares_stringLength (cs : List UInt8) : Spares Stop.ownBuffer (stringLength cs) := by
  induction cs with
  | nil =>
    intro h
    cases h
  | cons c cs ih =>
    rw [stringLength]
    split
    · exact Spares.ok _ _
    · exact Spares.bind ih fun _ => Spares.ok _ _

theorem spares_unitAt (s : Search) : Spares Stop.ownBuffer (unitAt s) := by
  unfold unitAt
  split
  · intro h
    cases h
  · split
    · intro h
      cases h
    · exact Spares.ok _ _

end Spares

/-! ### One turn of the inner loop -/

variable {s s' : Search}

/-- No buffer is held but the one in hand. -/
def OneHeld (s : Search) : Prop := s.busy = held s.pBuf

/-- The block in hand is let go before the next one is read. -/
theorem OneHeld.spares_reload (h : OneHeld s) : Spares Stop.ownBuffer (reload s) := by
  unfold reload
  split
  · rw [brelse_held h]
    refine Spares.bind (spares_bmap _ _ _) fun r => ?_
    have hbread : breadBusy { s with busy := [], ino := r.2.1, fs := r.2.2 } r.1 =
        .ok (bread r.2.2 r.1, { s with busy := [r.1], ino := r.2.1, fs := r.2.2 }) :=
      if_neg List.not_mem_nil
    dsimp only
    rw [hbread]
    exact Spares.ok _ _
  · exact Spares.ok _ _

theorem OneHeld.reload (h : OneHeld s) (heq : FileManager.reload s = .ok s') :
    OneHeld s' ∧ s'.freeEntryOffset = s.freeEntryOffset := by
  rcases reload_ok heq with rfl | ⟨blkno, -, hs⟩
  · exact ⟨h, rfl⟩
  · rw [brelse_held h] at hs
    rw [hs]
    exact ⟨rfl, rfl⟩

theorem OneHeld.spares_readHead (h : OneHeld s) : Spares Stop.ownBuffer (readHead s) := by
  unfold readHead
  refine Spares.bind h.spares_reload fun s₁ => Spares.bind (spares_unitAt s₁) fun r => ?_
  exact Spares.ok _ _

theorem OneHeld.readHead (h : OneHeld s) (heq : FileManager.readHead s = .ok s') :
    OneHeld s' ∧ s'.freeEntryOffset = s.freeEntryOffset := by
  unfold FileManager.readHead at heq
  obtain ⟨s₁, hreload, heq⟩ := bind_eq_ok.mp heq
  obtain ⟨r, -, heq⟩ := bind_eq_ok.mp heq
  obtain ⟨hone, hfree⟩ := h.reload hreload
  cases heq
  exact ⟨hone, hfree⟩

theorem OneHeld.readAdditions (h : OneHeld s) {n index : ℕ} :
    Spares Stop.ownBuffer (readAdditions n index s) ∧
      ∀ s', FileManager.readAdditions n index s = .ok s' → OneHeld s' := by
  induction n generalizing index s with
  | zero =>
    refine ⟨Spares.ok _ _, fun s' heq => ?_⟩
    cases heq
    exact h
  | succ n ih =>
    have hnext : ∀ s₁, FileManager.reload s = .ok s₁ → ∀ u reads,
        OneHeld { s₁ with u := u, reads := reads } := fun s₁ hreload _ _ => (h.reload hreload).1
    rw [FileManager.readAdditions]
    constructor
    · intro herr
      rcases bind_eq_error.mp herr with herr | ⟨s₁, hreload, herr⟩
      · exact h.spares_reload herr
      · rcases bind_eq_error.mp herr with herr | ⟨r, -, herr⟩
        · exact spares_unitAt s₁ herr
        · dsimp only at herr
          split at herr
          · cases herr
          · exact (ih (hnext s₁ hreload _ _)).1 herr
    · intro s' heq
      obtain ⟨s₁, hreload, heq⟩ := bind_eq_ok.mp heq
      obtain ⟨r, -, heq⟩ := bind_eq_ok.mp heq
      dsimp only at heq
      split at heq
      · cases heq
      · exact (ih (hnext s₁ hreload _ _)).2 s' heq

/-- The offset of the unit behind the part of the free record in `u_dent` that a name of
`length` more characters would take. -/
def behind (s : Search) (length : ℕ) : ℤ :=
  (((length + 7) / 32 : ℕ) * 32 + s.u.mOffset) % 2 ^ 32

/-- The record read last is the first free one that the search keeps in mind, and the unit
behind the part to be used lies behind the first block and in the block in hand. -/
def BehindInHand (s : Search) : Prop :=
  s.u.uDent.mIno = 0 ∧ s.freeEntryOffset = 0 ∧ ∃ length, stringLength s.u.uDirp = .ok length ∧
    ((length + 7) / 32 : ℕ) ≤ s.u.uDent.mAdditionEsize ∧ 512 ≤ behind s length ∧
    ∃ r, bmap s.fs s.ino (int32 (behind s length / 512)) = .ok r ∧ r.1 ∈ held s.pBuf

/-- The turn of the inner loop taken next sleeps for the buffer in hand. -/
def WaitsForItself (s : Search) : Prop := ∃ s', readHead s = .ok s' ∧ BehindInHand s'

theorem OneHeld.noteFree_error (h : OneHeld s) (hfree : s.u.uDent.mIno = 0) :
    noteFree s = .error .ownBuffer ↔ BehindInHand s := by
  unfold noteFree BehindInHand behind
  constructor
  · intro herr
    split at herr
    · cases herr
    · next hkept =>
      rcases bind_eq_error.mp herr with herr | ⟨length, hlength, herr⟩
      · exact absurd herr (spares_stringLength _)
      · dsimp only at herr
        split at herr
        · next huse =>
          split at herr
          · next hbehind =>
            rcases bind_eq_error.mp herr with herr | ⟨⟨phyBlkno, ino, fs⟩, hbmap, herr⟩
            · exact absurd herr (spares_bmap _ _ _)
            · rcases bind_eq_error.mp herr with herr | ⟨r, -, herr⟩
              · unfold breadBusy at herr
                split at herr
                · next hmem =>
                  rw [← h]
                  exact ⟨hfree, not_not.mp hkept, length, hlength, huse, hbehind, _, hbmap, hmem⟩
                · cases herr
              · cases herr
          · cases herr
        · cases herr
  · intro hbehind
    obtain ⟨-, hkept, length, hlength, huse, hbehind, ⟨phyBlkno, ino, fs⟩, hbmap, hmem⟩ := hbehind
    rw [if_neg (not_not.mpr hkept), hlength, ok_bind]
    dsimp only
    rw [if_pos huse, if_pos hbehind, hbmap, ok_bind]
    dsimp only
    rw [← h] at hmem
    have hread : breadBusy { s with freeEntryOffset := s.u.mOffset, ino := ino, fs := fs } phyBlkno =
        .error .ownBuffer := breadBusy_own hmem
    rw [hread]
    rfl

theorem OneHeld.noteFree (h : OneHeld s) (heq : FileManager.noteFree s = .ok s') : OneHeld s' := by
  rcases noteFree_ok heq with rfl | rfl | ⟨length, blkno, -, -, hs⟩
  · exact h
  · exact h
  · rw [hs]
    exact h

/-- **One turn** sleeps for ever at such a free record, and nowhere else. -/
theorem OneHeld.scanStep_error (h : OneHeld s) :
    scanStep s = .error .ownBuffer ↔ WaitsForItself s := by
  unfold scanStep WaitsForItself
  constructor
  · intro herr
    rcases bind_eq_error.mp herr with herr | ⟨s₁, hhead, herr⟩
    · exact absurd herr h.spares_readHead
    · have h₁ := (h.readHead hhead).1
      split at herr
      · next hfree =>
        rcases bind_eq_error.mp herr with herr | ⟨s₂, -, herr⟩
        · exact ⟨s₁, hhead, (h₁.noteFree_error hfree).mp herr⟩
        · cases herr
      · rcases bind_eq_error.mp herr with herr | ⟨s₂, -, herr⟩
        · exact absurd herr h₁.readAdditions.1
        · cases herr
  · intro hwaits
    obtain ⟨s₁, hhead, hbehind⟩ := hwaits
    have h₁ := (h.readHead hhead).1
    rw [hhead, ok_bind]
    refine (if_pos hbehind.1).trans ?_
    rw [(h₁.noteFree_error hbehind.1).mpr hbehind]
    rfl

theorem OneHeld.scanStep (h : OneHeld s) {found : Bool}
    (heq : FileManager.scanStep s = .ok (found, s')) : OneHeld s' := by
  unfold FileManager.scanStep at heq
  obtain ⟨s₁, hhead, heq⟩ := bind_eq_ok.mp heq
  have h₁ := (h.readHead hhead).1
  split at heq
  · obtain ⟨s₂, hnote, heq⟩ := bind_eq_ok.mp heq
    have h₂ := h₁.noteFree hnote
    cases heq
    exact h₂
  · obtain ⟨s₂, hadd, heq⟩ := bind_eq_ok.mp heq
    have h₂ := h₁.readAdditions.2 s₂ hadd
    cases heq
    exact h₂

/-! ### The inner loop -/

/-- A turn of the inner loop that does not end it. -/
def Turn (s s' : Search) : Prop := s.u.mCount ≠ 0 ∧ scanStep s = .ok (false, s')

/-- In one of its turns the inner loop sleeps for the buffer in hand. -/
def ScanWaits (s : Search) : Prop :=
  ∃ s', Relation.ReflTransGen Turn s s' ∧ s'.u.mCount ≠ 0 ∧ WaitsForItself s'

theorem OneHeld.scan (h : OneHeld s) {fuel : ℕ} {found : Bool}
    (heq : FileManager.scan fuel s = .ok (found, s')) : OneHeld s' := by
  induction fuel generalizing s with
  | zero =>
    rw [FileManager.scan] at heq
    split at heq
    · cases heq
      exact h
    · cases heq
  | succ fuel ih =>
    rw [FileManager.scan] at heq
    split at heq
    · cases heq
      exact h
    · obtain ⟨⟨found₁, s₁⟩, hstep, heq⟩ := bind_eq_ok.mp heq
      have h₁ := h.scanStep hstep
      dsimp only at heq
      split at heq
      · cases heq
        exact h₁
      · exact ih h₁ heq

/-- **The inner loop** sleeps for ever if and only if a turn of it does. -/
theorem OneHeld.scan_error (h : OneHeld s) :
    (∃ fuel, FileManager.scan fuel s = .error .ownBuffer) ↔ ScanWaits s := by
  constructor
  · intro herr
    obtain ⟨fuel, herr⟩ := herr
    induction fuel generalizing s with
    | zero =>
      rw [FileManager.scan] at herr
      split at herr
      · cases herr
      · cases herr
    | succ fuel ih =>
      rw [FileManager.scan] at herr
      split at herr
      · cases herr
      · next hcount =>
        rcases bind_eq_error.mp herr with herr | ⟨⟨found, s₁⟩, hstep, herr⟩
        · exact ⟨s, .refl, hcount, h.scanStep_error.mp herr⟩
        · dsimp only at herr
          split at herr
          · cases herr
          · next hnot =>
            rw [Bool.not_eq_true] at hnot
            subst hnot
            obtain ⟨s', hturns, hwaits⟩ := ih (h.scanStep hstep) herr
            exact ⟨s', .head ⟨hcount, hstep⟩ hturns, hwaits⟩
  · intro hwaits
    obtain ⟨s', hturns, hcount, hwaits⟩ := hwaits
    induction hturns using Relation.ReflTransGen.head_induction_on with
    | refl => exact ⟨1, Directory.scan_stop hcount (h.scanStep_error.mpr hwaits)⟩
    | head hturn _ ih =>
      obtain ⟨fuel, herr⟩ := ih (h.scanStep hturn.2)
      refine ⟨fuel + 1, ?_⟩
      rw [FileManager.scan, if_neg hturn.1, hturn.2, ok_bind]
      exact herr

/-! ### The whole path -/

/-- More turns change nothing for a search that comes to an end. -/
theorem scan_add {fuel : ℕ} {s : Search} {r : Except Stop (Bool × Search)}
    (heq : FileManager.scan fuel s = r) (hr : r ≠ .error .running) (k : ℕ) :
    FileManager.scan (fuel + k) s = r := by
  induction fuel generalizing s with
  | zero =>
    rw [FileManager.scan] at heq
    split at heq
    · next hcount => exact (Directory.scan_end _ hcount).trans heq
    · exact absurd heq.symm hr
  | succ fuel ih =>
    rw [Nat.add_right_comm, FileManager.scan]
    rw [FileManager.scan] at heq
    split at heq
    · next hcount =>
      rw [if_pos hcount]
      exact heq
    · next hcount =>
      rw [if_neg hcount]
      cases hstep : FileManager.scanStep s with
      | error e =>
        rw [hstep] at heq
        exact heq
      | ok r₁ =>
        rw [hstep, ok_bind] at heq
        rw [ok_bind]
        dsimp only at heq ⊢
        split at heq
        · next hfound =>
          rw [if_pos hfound]
          exact heq
        · next hfound =>
          rw [if_neg hfound]
          exact ih heq

theorem component_add {fuel : ℕ} {mode : DirectorySearchMode} {fs : FsState} {ino : Inode}
    {u : User} {busy : List ℤ} {curchar : UInt8} {r : Except Stop (Outcome × UInt8 × Search)}
    (heq : component fuel mode fs ino u busy curchar = r) (hr : r ≠ .error .running) (k : ℕ) :
    component (fuel + k) mode fs ino u busy curchar = r := by
  unfold component at heq ⊢
  cases hbegin : beginSearch fs ino u busy curchar with
  | error e =>
    rw [hbegin] at heq
    exact heq
  | ok b =>
    obtain ⟨error, curchar', s⟩ := b
    rw [hbegin, ok_bind] at heq
    rw [ok_bind]
    cases error with
    | some e => exact heq
    | none =>
      dsimp only at heq ⊢
      have hscan : FileManager.scan (fuel + k) s = FileManager.scan fuel s := by
        refine scan_add rfl (fun hrun => ?_) k
        rw [hrun] at heq
        exact hr heq.symm
      rw [hscan]
      exact heq

/-- The searches that the outer loop of `NameI` goes through. -/
inductive Visits {κ : Type*} (enter : κ → FsState → Inode → ℤ → κ × FsState × Option Inode)
    (mode : DirectorySearchMode) :
    κ → FsState → Inode → User → UInt8 → Search → Prop
  | here {k fs ino u curchar curchar' s} (hgoes : fs.uError = .NOERROR ∧ curchar ≠ 0)
      (hbegin : beginSearch fs ino u [] curchar = .ok (none, curchar', s)) :
      Visits enter mode k fs ino u curchar s
  | there {k fs ino u curchar curchar' s k' fs' ino' number fuel s'}
      (hgoes : fs.uError = .NOERROR ∧ curchar ≠ 0)
      (hcomp : component fuel mode fs ino u [] curchar = .ok (.next number, curchar', s))
      (henter : enter k s.fs s.ino number = (k', fs', some ino'))
      (hrest : Visits enter mode k' fs' ino' s.u curchar' s') : Visits enter mode k fs ino u curchar s'

section NameI

variable {κ : Type*} {enter : κ → FsState → Inode → ℤ → κ × FsState × Option Inode}
variable {mode : DirectorySearchMode} {k k' : κ} {fs fs' : FsState} {ino ino' : Inode} {u : User}
variable {busy : List ℤ} {curchar curchar' : UInt8} {fuel : ℕ} {number : ℤ}

theorem nameLoop_add {r : Except Stop Lookup}
    (heq : nameLoop enter mode fuel k fs ino u busy curchar = r) (hr : r ≠ .error .running)
    (n : ℕ) : nameLoop enter mode (fuel + n) k fs ino u busy curchar = r := by
  induction fuel generalizing k fs ino u busy curchar with
  | zero =>
    rw [nameLoop] at heq
    exact absurd heq.symm hr
  | succ fuel ih =>
    rw [Nat.add_right_comm, nameLoop]
    rw [nameLoop] at heq
    split at heq
    · next herror =>
      rw [if_pos herror]
      exact heq
    · next herror =>
      rw [if_neg herror]
      split at heq
      · next hend =>
        rw [if_pos hend]
        exact heq
      · next hend =>
        rw [if_neg hend]
        cases hcomp : component fuel mode fs ino u busy curchar with
        | error e =>
          rw [hcomp] at heq
          have hne : (.error e : Except Stop (Outcome × UInt8 × Search)) ≠ .error .running := by
            intro hrun
            cases hrun
            exact hr heq.symm
          rw [component_add hcomp hne]
          exact heq
        | ok c =>
          obtain ⟨outcome, curchar', s⟩ := c
          rw [hcomp, ok_bind] at heq
          rw [component_add hcomp (by simp), ok_bind]
          cases outcome with
          | next number =>
            dsimp only at heq ⊢
            cases henter : enter k s.fs s.ino number with
            | mk k' r' =>
              obtain ⟨fs', entered⟩ := r'
              rw [henter] at heq
              cases entered with
              | none => exact heq
              | some ino' => exact ih heq
          | parent => exact heq
          | create => exact heq
          | failed => exact heq

/-- A search that is begun with no buffer in hand. -/
theorem beginSearch_oneHeld {s : Search} {error : Option ErrorCode}
    (heq : beginSearch fs ino u [] curchar = .ok (error, curchar', s)) : OneHeld s := by
  unfold beginSearch at heq
  dsimp only at heq
  split at heq
  · cases heq
    rfl
  · split at heq
    · cases heq
      rfl
    · obtain ⟨r, -, heq⟩ := bind_eq_ok.mp heq
      obtain ⟨r', -, heq⟩ := bind_eq_ok.mp heq
      cases heq
      rfl

theorem spares_copyComponent (dbuf : ℕ → UInt8) (pChar : ℕ) (curchar : UInt8)
    (dirp : List UInt8) : Spares Stop.ownBuffer (copyComponent dbuf pChar curchar dirp) := by
  induction dirp generalizing dbuf pChar curchar with
  | nil =>
    unfold copyComponent
    split
    · exact Spares.ok _ _
    · intro h
      cases h
  | cons c cs ih =>
    unfold copyComponent
    split
    · exact Spares.ok _ _
    · dsimp only
      split
      · exact ih _ _ _
      · exact ih _ _ _

theorem spares_skipSlashes (curchar : UInt8) (dirp : List UInt8) :
    Spares Stop.ownBuffer (skipSlashes curchar dirp) := by
  induction dirp generalizing curchar with
  | nil =>
    unfold skipSlashes
    split
    · intro h
      cases h
    · exact Spares.ok _ _
  | cons c cs ih =>
    unfold skipSlashes
    split
    · exact ih _
    · exact Spares.ok _ _

theorem spares_beginSearch : Spares Stop.ownBuffer (beginSearch fs ino u busy curchar) := by
  unfold beginSearch
  dsimp only
  split
  · exact Spares.ok _ _
  · split
    · exact Spares.ok _ _
    · refine Spares.bind (spares_copyComponent _ _ _ _) fun r => ?_
      exact Spares.bind (spares_skipSlashes _ _) fun r' => Spares.ok _ _

theorem foundEntry_busy {s : Search} : (foundEntry mode curchar s).2.busy = s.busy := by
  unfold foundEntry
  split
  · split <;> rfl
  · rfl

theorem notFound_busy {s : Search} : (notFound mode curchar s).2.busy = s.busy := by
  unfold notFound
  split
  · split
    · rfl
    · split <;> rfl
  · rfl

/-- A component of the path is looked up with no buffer held at its end. -/
theorem component_busy {s : Search} {outcome : Outcome}
    (heq : component fuel mode fs ino u [] curchar = .ok (outcome, curchar', s)) :
    s.busy = [] := by
  unfold component at heq
  obtain ⟨⟨error, c, s₀⟩, hbegin, heq⟩ := bind_eq_ok.mp heq
  have h₀ := beginSearch_oneHeld hbegin
  cases error with
  | some error =>
    -- the search is given up before a block was read
    have hbusy : s₀.busy = [] := by
      unfold beginSearch at hbegin
      dsimp only at hbegin
      split at hbegin
      · cases hbegin
        rfl
      · split at hbegin
        · cases hbegin
          rfl
        · obtain ⟨r, -, hbegin⟩ := bind_eq_ok.mp hbegin
          obtain ⟨r', -, hbegin⟩ := bind_eq_ok.mp hbegin
          cases hbegin
    cases heq
    exact hbusy
  | none =>
    obtain ⟨⟨found, s₁⟩, hscan, heq⟩ := bind_eq_ok.mp heq
    have h₁ : OneHeld s₁ := h₀.scan hscan
    dsimp only at heq
    rw [brelse_held h₁] at heq
    cases heq
    split
    · exact foundEntry_busy
    · exact notFound_busy

/-- **A component** is looked up without end if and only if its search is. -/
theorem component_error :
    component fuel mode fs ino u [] curchar = .error .ownBuffer ↔
      ∃ curchar' s, beginSearch fs ino u [] curchar = .ok (none, curchar', s) ∧
        FileManager.scan fuel s = .error .ownBuffer := by
  unfold component
  constructor
  · intro herr
    rcases bind_eq_error.mp herr with herr | ⟨⟨error, c, s⟩, hbegin, herr⟩
    · exact absurd herr spares_beginSearch
    · cases error with
      | some e => cases herr
      | none =>
        rcases bind_eq_error.mp herr with herr | ⟨r, -, herr⟩
        · exact ⟨c, s, hbegin, herr⟩
        · cases herr
  · intro h
    obtain ⟨c, s, hbegin, hscan⟩ := h
    rw [hbegin, ok_bind]
    dsimp only
    rw [hscan]
    rfl

theorem nameLoop_busy {r : Lookup}
    (heq : nameLoop enter mode fuel k fs ino u [] curchar = .ok r) : r.busy = [] := by
  induction fuel generalizing k fs ino u curchar with
  | zero =>
    rw [nameLoop] at heq
    cases heq
  | succ fuel ih =>
    rw [nameLoop] at heq
    split at heq
    · cases heq
      rfl
    · split at heq
      · cases heq
        rfl
      · obtain ⟨⟨outcome, curchar', s⟩, hcomp, heq⟩ := bind_eq_ok.mp heq
        have hbusy := component_busy hcomp
        cases outcome with
        | next number =>
          dsimp only at heq
          rw [hbusy] at heq
          split at heq
          · exact ih heq
          · cases heq
            rfl
        | parent =>
          cases heq
          exact hbusy
        | create =>
          cases heq
          exact hbusy
        | failed =>
          cases heq
          exact hbusy

/-- **The outer loop** sleeps for ever if and only if one of its searches does. -/
theorem nameLoop_error :
    (∃ fuel, nameLoop enter mode fuel k fs ino u [] curchar = .error .ownBuffer) ↔
      ∃ s, Visits enter mode k fs ino u curchar s ∧ ScanWaits s := by
  constructor
  · intro herr
    obtain ⟨fuel, herr⟩ := herr
    induction fuel generalizing k fs ino u curchar with
    | zero =>
      rw [nameLoop] at herr
      cases herr
    | succ fuel ih =>
      rw [nameLoop] at herr
      split at herr
      · cases herr
      · next herror =>
        split at herr
        · cases herr
        · next hend =>
          have hgoes : fs.uError = .NOERROR ∧ curchar ≠ 0 := ⟨not_not.mp herror, hend⟩
          rcases bind_eq_error.mp herr with herr | ⟨⟨outcome, curchar', s⟩, hcomp, herr⟩
          · obtain ⟨curchar', s, hbegin, hscan⟩ := component_error.mp herr
            exact ⟨s, .here hgoes hbegin,
              (beginSearch_oneHeld hbegin).scan_error.mp ⟨fuel, hscan⟩⟩
          · cases outcome with
            | next number =>
              dsimp only at herr
              rw [component_busy hcomp] at herr
              split at herr
              · next henter =>
                obtain ⟨s', hvisits, hwaits⟩ := ih herr
                exact ⟨s', .there hgoes hcomp henter hvisits, hwaits⟩
              · cases herr
            | parent => cases herr
            | create => cases herr
            | failed => cases herr
  · intro h
    obtain ⟨s, hvisits, hwaits⟩ := h
    induction hvisits with
    | here hgoes hbegin =>
      obtain ⟨fuel, hscan⟩ := (beginSearch_oneHeld hbegin).scan_error.mpr hwaits
      refine ⟨fuel + 1, ?_⟩
      rw [nameLoop, if_neg (not_not.mpr hgoes.1), if_neg hgoes.2,
        component_error.mpr ⟨_, _, hbegin, hscan⟩]
      rfl
    | @there _ _ _ _ _ _ _ _ _ _ _ fuel _ hgoes hcomp henter _ ih =>
      obtain ⟨fuel', herr⟩ := ih hwaits
      refine ⟨fuel + fuel' + 1, ?_⟩
      rw [nameLoop, if_neg (not_not.mpr hgoes.1), if_neg hgoes.2, component_add hcomp (by simp),
        ok_bind]
      dsimp only
      rw [henter, component_busy hcomp, Nat.add_comm]
      exact nameLoop_add herr (by simp) _

end NameI

/-- The searches that a call of `NameI` goes through. -/
def NameIVisits {κ : Type*} (enter : κ → FsState → Inode → ℤ → κ × FsState × Option Inode)
    (mode : DirectorySearchMode) (k : κ) (fs : FsState) (rootDirInode uCdir : Inode) (u : User)
    (s : Search) : Prop :=
  ∃ c dirp curchar dirp', u.uDirp = c :: dirp ∧ skipSlashes c dirp = .ok (curchar, dirp') ∧
    ¬ (curchar = 0 ∧ mode ≠ .OPEN) ∧
    Visits enter mode k fs (if c = slash then rootDirInode else uCdir)
      { u with uDirp := dirp' } curchar s

theorem nameI_error {κ : Type*} {enter : κ → FsState → Inode → ℤ → κ × FsState × Option Inode}
    {mode : DirectorySearchMode} {k : κ} {fs : FsState} {rootDirInode uCdir : Inode} {u : User} :
    (∃ fuel, nameI enter mode fuel k fs rootDirInode uCdir u = .error .ownBuffer) ↔
      ∃ s, NameIVisits enter mode k fs rootDirInode uCdir u s ∧ ScanWaits s := by
  unfold nameI NameIVisits
  constructor
  · intro herr
    obtain ⟨fuel, herr⟩ := herr
    split at herr
    · cases herr
    · next c dirp hdirp =>
      rcases bind_eq_error.mp herr with herr | ⟨⟨curchar, dirp'⟩, hskip, herr⟩
      · exact absurd herr (spares_skipSlashes _ _)
      · dsimp only at herr
        split at herr
        · cases herr
        · next hgoes =>
          obtain ⟨s, hvisits, hwaits⟩ := nameLoop_error.mp ⟨fuel, herr⟩
          exact ⟨s, ⟨c, dirp, curchar, dirp', hdirp, hskip, hgoes, hvisits⟩, hwaits⟩
  · intro h
    obtain ⟨s, ⟨c, dirp, curchar, dirp', hdirp, hskip, hgoes, hvisits⟩, hwaits⟩ := h
    obtain ⟨fuel, herr⟩ := nameLoop_error.mpr ⟨s, hvisits, hwaits⟩
    refine ⟨fuel, ?_⟩
    rw [hdirp]
    dsimp only
    rw [hskip, ok_bind]
    dsimp only
    rw [if_neg hgoes]
    exact herr

theorem nameI_busy {κ : Type*} {enter : κ → FsState → Inode → ℤ → κ × FsState × Option Inode}
    {mode : DirectorySearchMode} {fuel : ℕ} {k : κ} {fs : FsState} {rootDirInode uCdir : Inode}
    {u : User} {r : Lookup} (heq : nameI enter mode fuel k fs rootDirInode uCdir u = .ok r) :
    r.busy = [] := by
  unfold nameI at heq
  split at heq
  · cases heq
  · obtain ⟨⟨curchar, dirp'⟩, -, heq⟩ := bind_eq_ok.mp heq
    dsimp only at heq
    split at heq
    · cases heq
      rfl
    · exact nameLoop_busy heq

/-- Four live records that fill a block, and a free record. -/
def freeBehind (k : ℕ) : UInt8 :=
  if k < 512 ∧ (k % 160 = 0) then 1 else if k < 480 ∧ k % 160 = 28 then 4 else 0

end FileManager
end UnixV6pp
