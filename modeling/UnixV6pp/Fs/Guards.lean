import UnixV6pp.Fs.Directory
import UnixV6pp.Fs.Located

/-!
# Who may use a directory

Access to a file depends on four fields: the mode and the owners of its inode, and whether
the file system is read-only.  Mapping a block and writing to the file change none of them.

* `Guard`, `guardOf` — the four fields; `Guard.access` — `Access` in terms of them.
* `bmap_guard` — `Bmap` leaves them alone.
* `writeI_one` — **a transfer to one block**: what `WriteI` does to inode and super block is
  what its call of `Bmap` did.
-/

namespace UnixV6pp

open Words FileSystem Inode BufferManager

/-- What access to a file depends on. -/
@[ext] structure Guard where
  sRonly : ℤ
  iMode : UInt32
  iUid : ℤ
  iGid : ℤ

def guardOf (fs : FsState) (ino : Inode) : Guard := ⟨fs.sb.sRonly, ino.iMode, ino.iUid, ino.iGid⟩

open FileManager

/-- `Access` for a process of this user and group. -/
def Guard.access (g : Guard) (uid gid : ℤ) (mode : UInt32) : Option ErrorCode :=
  if mode = IWRITE ∧ g.sRonly ≠ 0 then
    some .EROFS
  else if uid = 0 then
    if mode = IEXEC ∧ g.iMode &&& (IEXEC ||| IEXEC >>> 3 ||| IEXEC >>> 6) = 0 then some .EACCES
    else none
  else
    let mode := if uid ≠ g.iUid then if gid ≠ g.iGid then mode >>> 3 >>> 3 else mode >>> 3 else mode
    if g.iMode &&& mode ≠ 0 then none else some .EACCES

section Access

variable {s : Search} {mode : UInt32}

theorem sRonly_getFS (sb : SuperBlock) : (getFS sb).sRonly = sb.sRonly := by
  unfold getFS
  split <;> rfl

/-- `Access` looks at no more. -/
theorem access_eq :
    access s mode = (guardOf s.fs s.ino).access s.u.uUid s.u.uGid mode := by
  unfold access Guard.access guardOf
  rw [sRonly_getFS]

end Access

/-! ### `Bmap` -/

section Bmap

variable {s s' : FsState} {ino ino' : Inode} {lbn index r : ℤ}

theorem alloc_sRonly {b : Option ℤ} (h : alloc s = .ok (b, s')) : s'.sb.sRonly = s.sb.sRonly := by
  unfold alloc at h
  dsimp only at h
  split at h
  · cases h
  · obtain ⟨blkno, -, h⟩ := Except.bind_eq_ok.mp h
    have hload : ∀ (sb : SuperBlock) (b : Block), (loadGroup sb b).sRonly = sb.sRonly :=
      fun _ _ => rfl
    split at h
    · cases h
      exact sRonly_getFS s.sb
    · split at h
      · cases h
        exact sRonly_getFS s.sb
      · cases h
        simp only [SuperBlock.setFmod]
        split
        · rw [hload]
          exact sRonly_getFS s.sb
        · exact sRonly_getFS s.sb

theorem allocBuf_sRonly {b : Option Buf} (h : allocBuf s = .ok (b, s')) :
    s'.sb.sRonly = s.sb.sRonly := by
  unfold allocBuf at h
  obtain ⟨⟨b, s₁⟩, halloc, h⟩ := Except.bind_eq_ok.mp h
  cases h
  exact alloc_sRonly halloc

theorem bmapDirect_guard (h : bmapDirect s ino lbn = .ok (r, ino', s')) :
    guardOf s' ino' = guardOf s ino := by
  unfold bmapDirect at h
  obtain ⟨phyBlkno, -, h⟩ := Except.bind_eq_ok.mp h
  dsimp only at h
  split at h
  · obtain ⟨⟨buf, s₁⟩, halloc, h⟩ := Except.bind_eq_ok.mp h
    have hsb := allocBuf_sRonly halloc
    cases buf with
    | none =>
      cases h
      simp [guardOf, hsb]
    | some buf =>
      cases h
      simp [guardOf, bdwrite, hsb]
  · cases h
    rfl

theorem firstTable_guard {buf : Option Buf} (h : firstTable s ino index = .ok (buf, ino', s')) :
    guardOf s' ino' = guardOf s ino := by
  unfold firstTable at h
  obtain ⟨phyBlkno, -, h⟩ := Except.bind_eq_ok.mp h
  split at h
  · obtain ⟨⟨buf, s₁⟩, halloc, h⟩ := Except.bind_eq_ok.mp h
    have hsb := allocBuf_sRonly halloc
    cases buf with
    | none =>
      cases h
      simp [guardOf, hsb]
    | some buf =>
      cases h
      simp [guardOf, hsb]
  · cases h
    rfl

theorem secondTable_sRonly {first : Buf} {buf : Option Buf}
    (h : secondTable s first index = .ok (buf, s')) : s'.sb.sRonly = s.sb.sRonly := by
  unfold secondTable at h
  obtain ⟨phyBlkno, -, h⟩ := Except.bind_eq_ok.mp h
  split at h
  · obtain ⟨⟨buf, s₁⟩, halloc, h⟩ := Except.bind_eq_ok.mp h
    have hsb := allocBuf_sRonly halloc
    cases buf with
    | none =>
      cases h
      exact hsb
    | some buf =>
      cases h
      exact hsb
  · cases h
    rfl

theorem lastTable_sRonly {table : Buf} (h : lastTable s table index = .ok (r, s')) :
    s'.sb.sRonly = s.sb.sRonly := by
  unfold lastTable at h
  obtain ⟨phyBlkno, -, h⟩ := Except.bind_eq_ok.mp h
  dsimp only at h
  split at h
  · obtain ⟨⟨buf, s₁⟩, halloc, h⟩ := Except.bind_eq_ok.mp h
    have hsb := allocBuf_sRonly halloc
    cases buf with
    | none =>
      cases h
      exact hsb
    | some buf =>
      cases h
      exact hsb
  · cases h
    rfl

/-- The part of `Bmap` behind the index block of the first level. -/
theorem tables_guard {table : Option Buf} {phyBlkno : ℤ} (h : (match table with
    | none => pure (0, ino, s)
    | some table => do
      let (phyBlkno, s) ← lastTable s table index
      return (phyBlkno, ino, s) : Except Stop (ℤ × Inode × FsState)) = .ok (phyBlkno, ino', s')) :
    guardOf s' ino' = guardOf s ino := by
  cases table with
  | none =>
    cases h
    rfl
  | some table =>
    obtain ⟨⟨phyBlkno, s₁⟩, hlast, h⟩ := Except.bind_eq_ok.mp h
    have hsb := lastTable_sRonly hlast
    cases h
    simp [guardOf, hsb]

/-- **`Bmap`** leaves alone what access depends on. -/
theorem bmap_guard (h : bmap s ino lbn = .ok (r, ino', s')) : guardOf s' ino' = guardOf s ino := by
  unfold bmap at h
  split at h
  · cases h
    rfl
  · split at h
    · exact bmapDirect_guard h
    · obtain ⟨⟨first, ino₁, s₁⟩, hfirst, h⟩ := Except.bind_eq_ok.mp h
      have h₁ := firstTable_guard hfirst
      cases first with
      | none =>
        cases h
        exact h₁
      | some first =>
        dsimp only at h
        split at h <;> split at h
        all_goals
          obtain ⟨⟨table, s₂⟩, hsecond, h⟩ := Except.bind_eq_ok.mp h
          have hguard : guardOf s' ino' = guardOf s₂ ino₁ := tables_guard h
          rw [hguard, ← h₁]
        · simp [guardOf, secondTable_sRonly hsecond]
        · cases hsecond
          rfl
        · simp [guardOf, secondTable_sRonly hsecond]
        · cases hsecond
          rfl

end Bmap

/-! ### `WriteI` -/

/-- Filling a block changes the contents of blocks, and size and flags of the inode. -/
theorem writeBlk_frame (buffer : ℤ → Block) (t : Transfer) (bn : ℤ) {offset nbytes : ℤ}
    (hoff : 0 ≤ offset) (hn : 0 ≤ nbytes) :
    ∃ t', writeBlk buffer t bn offset nbytes = .ok t' ∧ t'.io = t.io.advance nbytes ∧
      (∃ blk, t'.fs = { t.fs with blk := blk }) ∧
      ∃ iSize iFlag, t'.ino = { t.ino with iSize := iSize, iFlag := iFlag } := by
  have hin : ¬ (offset < 0 ∨ nbytes < 0) := by omega
  unfold writeBlk iomoveIn
  simp only [if_neg hin, Except.ok_bind, Except.pure_eq]
  refine ⟨_, rfl, rfl, ?_, _, _, rfl⟩
  dsimp only
  split
  · exact ⟨t.fs.blk, rfl⟩
  · simp only [bawrite, ite_self]
    exact ⟨_, rfl⟩

/-- **A transfer to one block.** -/
theorem writeI_one (buffer : ℤ → Block) {t : Transfer} {b : ℤ} {ino' : Inode} {fs' : FsState}
    (hplain : t.ino.iMode &&& IFMT ≠ IFCHR ∧ t.ino.iMode &&& IFMT ≠ IFBLK)
    (herr : t.fs.uError = .NOERROR) (hcount : 0 < t.io.mCount) (hoff : 0 ≤ t.io.mOffset)
    (hfits : t.io.mOffset.tmod 512 + t.io.mCount ≤ 512)
    (hbmap : bmap t.fs { t.ino with iFlag := t.ino.iFlag ||| (IACC ||| IUPD) }
      (t.io.mOffset.tdiv 512) = .ok (b, ino', fs')) :
    ∃ t' blk iSize iFlag, writeI buffer t = .ok t' ∧ t'.fs = { fs' with blk := blk } ∧
      t'.ino = { ino' with iSize := iSize, iFlag := iFlag } := by
  obtain ⟨n, hn⟩ : ∃ n : ℕ, t.io.mCount.toNat = n + 1 := ⟨t.io.mCount.toNat - 1, by omega⟩
  have hmod : 0 ≤ t.io.mOffset.tmod 512 := Int.tmod_nonneg _ hoff
  have hmin : min (512 - t.io.mOffset.tmod 512) t.io.mCount = t.io.mCount := by omega
  have hgo : ¬ (t.fs.uError ≠ .NOERROR ∨ t.io.mCount = 0) := by
    rw [herr]
    simp only [ne_eq, not_true_eq_false, false_or]
    omega
  have hloop : writeI buffer t = if b = 0 then .ok { t with ino := ino', fs := fs' }
      else writeBlk buffer { t with ino := ino', fs := fs' } b (t.io.mOffset.tmod 512) t.io.mCount >>=
        writeLoop buffer (n + 1) := by
    unfold writeI
    dsimp only
    rw [if_neg hplain.1, if_neg (show ¬ t.io.mCount = 0 by omega), hn, writeLoop]
    rw [if_neg hgo, if_neg hplain.2, hmin]
    dsimp only
    rw [hbmap, Except.ok_bind]
    rfl
  rw [hloop]
  by_cases hb : b = 0
  · exact ⟨_, fs'.blk, ino'.iSize, ino'.iFlag, if_pos hb, rfl, rfl⟩
  · rw [if_neg hb]
    obtain ⟨t', hwrite, hio, ⟨blk, hfs⟩, iSize, iFlag, hino⟩ :=
      writeBlk_frame buffer { t with ino := ino', fs := fs' } b hmod hcount.le
    have hzero : t'.io.mCount = 0 := by
      rw [hio]
      exact sub_self t.io.mCount
    rw [hwrite, Except.ok_bind, writeLoop, if_pos (.inr hzero)]
    exact ⟨t', blk, iSize, iFlag, rfl, hfs, hino⟩

end UnixV6pp
