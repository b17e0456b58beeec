import UnixV6pp.Fs.CreatCall
import UnixV6pp.Lib.Flags

/-!
# A `Creat` that succeeds over a file that exists

The blocks of the file go back to the free list, and the directories stay as they are.  But
`ITrunc` sets the number of links to 1, and the mask it applies to the mode is empty, so that
the permission bits asked for are added to those the file had.

* `Emptied` — what such a call should leave.
* `emptied_iff` — **when it does.**
-/

namespace UnixV6pp
namespace FileManager

open Words FileSystem Inode

variable {ι : Type*} {c c' : OpenCall} {buffer : ℤ → Block} {time : ℤ} {i : ι}
variable {openDevice : Inode → Option ErrorCode} {mode : UInt32} {addr : ι → ℕ → ℤ} {L : List ℤ}

theorem iupdate_uError {s s' : FsState} {ino : Inode} (h : iupdate s ino time = .ok s') :
    s'.uError = s.uError := by
  unfold iupdate at h
  dsimp only at h
  split_ifs at h <;> cases h <;> rfl

/-- `IPut` of an inode with a name does not touch the error. -/
theorem iPut_uError (hcount : 1 ≤ c.ino.iCount) (hnlink : 0 < c.ino.iNlink)
    (h : iPut buffer time c = .ok c') : c'.fs.uError = c.fs.uError := by
  by_cases h1 : c.ino.iCount = 1
  · obtain ⟨-, -, hupdate⟩ := iPut_last h1 hnlink h
    exact iupdate_uError hupdate
  · rw [(iPut_shared (by omega) h).1]

/-- A call that makes an open file of a regular file leaves the inode alone. -/
theorem openFile_succeeds (hreg : c.ino.iMode &&& IFMT = 0) (hcount : 1 ≤ c.ino.iCount)
    (hnlink : 0 < c.ino.iNlink) (h : openFile buffer time openDevice c mode = .ok c')
    (hok : c'.fs.uError = .NOERROR) : c'.ino = c.ino ∧ c'.fs = c.fs := by
  have hopenI : openI openDevice c.ino = none := by
    unfold openI
    rw [hreg]
    exact if_neg (by decide)
  unfold openFile fAlloc at h
  cases hfd : (List.finRange 15).find? fun fd => c.uOfiles fd = none with
  | none =>
    rw [hfd] at h
    have herr : c'.fs.uError = .EMFILE := iPut_uError (by exact hcount) (by exact hnlink) h
    rw [hok] at herr
    cases herr
  | some fd =>
    rw [hfd] at h
    dsimp only at h
    cases hf : (List.finRange 100).find? fun f => (c.mFile f).fCount = 0 with
    | none =>
      rw [hf] at h
      have herr : c'.fs.uError = .ENFILE := iPut_uError (by exact hcount) (by exact hnlink) h
      rw [hok] at herr
      cases herr
    | some f =>
      rw [hf] at h
      dsimp only at h
      split at h
      · cases h
        exact ⟨rfl, rfl⟩
      · next error herror =>
        exact absurd (hopenI.symm.trans herror) (by simp)

theorem isDevice_regular {ino : Inode} (h : ino.iMode &&& IFMT = 0) : ino.isDevice = false := by
  unfold isDevice
  have hmask : IFCHR &&& IFBLK = IFMT &&& 0x2000 := by decide
  rw [hmask, ← UInt32.and_assoc, h]
  decide

/-- A successful call truncates the file and adds the permission bits. -/
theorem creat_succeeds (h : Existing c) (hreg : c.current.iMode &&& IFMT = 0)
    (hcreat : creat buffer time openDevice c mode = .ok c') (hok : c'.fs.uError = .NOERROR) :
    ∃ ino fs, itrunc buffer c.fs c.current = .ok (ino, fs) ∧ c'.fs = fs ∧
      c'.ino = { ino.prele with iMode := ino.prele.iMode ||| newACCMode mode } := by
  obtain ⟨-, hcount, -⟩ := current_fields h
  have hnonneg := h.count_nonneg
  have hdev := isDevice_regular hreg
  obtain ⟨c₂, rfl, ⟨e, he, -, hput⟩ | ⟨-, ino, fs, htrunc, hopen⟩⟩ := creat_ways h hcreat
  · have hcount₁ : 1 ≤ ((got c).setError e).ino.iCount := by
      change 1 ≤ c.current.iCount
      omega
    exact absurd ((iPut_uError hcount₁ h.nlink_pos hput).symm.trans hok) he
  · obtain ⟨-, -, -, hino⟩ := itrunc_fields hdev htrunc
    obtain ⟨iFlag', hprele⟩ := prele_eq ino
    have hreg₁ : ino.prele.iMode &&& IFMT = 0 := by
      rw [hprele, hino]
      exact hreg
    have hcount₁ : 1 ≤ ino.prele.iCount := by
      rw [hprele, hino]
      change 1 ≤ c.current.iCount
      omega
    have hnlink₁ : 0 < ino.prele.iNlink := by
      rw [hprele, hino]
      exact Int.one_pos
    obtain ⟨hino', hfs'⟩ := openFile_succeeds hreg₁ hcount₁ hnlink₁ hopen hok
    have hino₂ : c₂.ino = ino.prele := hino'
    refine ⟨ino, fs, htrunc, hfs', ?_⟩
    dsimp only
    rw [hino₂]

/-- The permission bits of a mode. -/
def rwx : UInt32 := IRWXU ||| IRWXG ||| IRWXO

/-- What a successful `Creat` of a regular file should leave; `addr` names the blocks of all
inodes, and `i` is that of the file. -/
structure Emptied (addr : ι → ℕ → ℤ) (i : ι) (mode : UInt32) (c c' : OpenCall) : Prop where
  size : c'.current.iSize = 0
  empty : ∀ k < 10, c'.current.iAddr k = 0
  /-- The former blocks are on the free list, each of them once. -/
  freed : ∃ L, FreeList c'.fs L ∧ ∀ b ∈ fileBlocks c.fs.blk c.current.iAddr, L.count b = 1
  /-- The permission bits are those asked for. -/
  permissions : c'.current.iMode &&& rwx = newACCMode mode
  type : c'.current.iMode &&& IFMT = c.current.iMode &&& IFMT
  nlink : c'.current.iNlink = c.current.iNlink
  uid : c'.current.iUid = c.current.iUid
  gid : c'.current.iGid = c.current.iGid
  /-- The other files, directories among them, keep their blocks and what is in them. -/
  others : ∀ j ≠ i, ∀ k q, IsPath k q →
    (⟨c'.fs.blk, addr⟩ : View ι).at (j, k) q = (⟨c.fs.blk, addr⟩ : View ι).at (j, k) q ∧
      ((⟨c.fs.blk, addr⟩ : View ι).at (j, k) q ≠ 0 →
        c'.fs.blk ((⟨c.fs.blk, addr⟩ : View ι).at (j, k) q) =
          c.fs.blk ((⟨c.fs.blk, addr⟩ : View ι).at (j, k) q))

/-- A block of another inode is not one of this inode. -/
theorem Apart.other {v : View ι} (h : Apart v L) {j : ι} (hj : j ≠ i) {k : ℕ} {q : List ℕ}
    (hq : IsPath k q) : v.at (j, k) q ∉ fileBlocks v.blk (v.addr i) := by
  intro hmem
  obtain ⟨hne, l, p, hp, heq⟩ := (Apart.mem_fileBlocks i).mp hmem
  exact hj (congrArg Prod.fst (h.owned (j, k) q (i, l) p hq hp hne heq.symm).1)

/-- The permission bits after the call. -/
theorem permissions_iff {m n : UInt32} : (m ||| newACCMode n) &&& rwx = newACCMode n ↔
    m &&& rwx ||| newACCMode n = newACCMode n := by
  have hself : newACCMode n &&& rwx = newACCMode n := by
    unfold newACCMode rwx
    rw [UInt32.and_assoc, UInt32.and_self]
  rw [Flags.and_or_distrib, hself]

/-- **A successful `Creat` of a regular file leaves what it should** if and only if the file had
one link and no permission bit that was not asked for. -/
theorem emptied_iff (h : Existing c) (hfree : FreeList c.fs L) (hapart : Apart ⟨c.fs.blk, addr⟩ L)
    (haddr : addr i = c.current.iAddr) (hreg : c.current.iMode &&& IFMT = 0)
    (hcreat : creat buffer time openDevice c mode = .ok c') (hok : c'.fs.uError = .NOERROR) :
    Emptied addr i mode c c' ↔
      c.current.iNlink = 1 ∧ c.current.iMode &&& rwx ||| newACCMode mode = newACCMode mode := by
  obtain ⟨-, hcount, -⟩ := current_fields h
  have hnonneg := h.count_nonneg
  obtain ⟨ino, fs, htrunc, hfs, hino⟩ := creat_succeeds h hreg hcreat hok
  have hdev : c.current.isDevice = false := isDevice_regular hreg
  have hfreeable := hapart.freeable hfree i
  rw [haddr] at hfreeable
  obtain ⟨ino', fs', htrunc', hino', -, hfree', -, hblk⟩ := itrunc_of_freeable hfreeable hdev buffer
  rw [htrunc] at htrunc'
  cases htrunc'
  obtain ⟨iFlag', hprele⟩ := prele_eq ino
  -- the inode afterwards, field by field
  have hcurrent : c'.current = { c'.ino with
      iFlag := c'.ino.iFlag ||| ILOCK, iCount := c'.ino.iCount + 1 } := by
    have hcount' : c'.ino.iCount ≠ 0 := by
      rw [hino, hprele, hino']
      change c.current.iCount ≠ 0
      omega
    exact if_neg hcount'
  have hmode : c'.current.iMode = c.current.iMode ||| newACCMode mode := by
    rw [hcurrent, hino, hprele, hino']
    rfl
  have hnlink : c'.current.iNlink = 1 := by
    rw [hcurrent, hino, hprele, hino']
  have htype : newACCMode mode &&& IFMT = 0 := by
    unfold newACCMode
    have hmask : (IRWXU ||| IRWXG ||| IRWXO) &&& IFMT = 0 := by decide
    rw [UInt32.and_assoc, hmask, UInt32.and_zero]
  constructor
  · intro hemptied
    refine ⟨hemptied.nlink.symm.trans hnlink, ?_⟩
    rw [← permissions_iff, ← hmode]
    exact hemptied.permissions
  · rintro ⟨hone, hbits⟩
    refine ⟨?_, ?_, ?_, ?_, ?_, hnlink.trans hone.symm, ?_, ?_, ?_⟩
    · rw [hcurrent, hino, hprele, hino']
    · intro k hk
      rw [hcurrent, hino, hprele, hino']
      exact if_pos hk
    · refine ⟨_, hfs ▸ hfree', fun b hb => ?_⟩
      refine List.count_eq_one_of_mem hfree'.nodup ?_
      simp [hb]
    · rw [hmode, permissions_iff]
      exact hbits
    · rw [hmode, Flags.and_or_distrib, htype, UInt32.or_zero]
    · rw [hcurrent, hino, hprele, hino']
      rfl
    · rw [hcurrent, hino, hprele, hino']
      rfl
    · intro j hj k q hq
      have hkept : ∀ k q, IsPath k q → c'.fs.blk ((⟨c.fs.blk, addr⟩ : View ι).at (j, k) q) =
          c.fs.blk ((⟨c.fs.blk, addr⟩ : View ι).at (j, k) q) := by
        intro k q hq
        have hother := Apart.other (i := i) hapart hj hq
        change _ ∉ fileBlocks c.fs.blk (addr i) at hother
        rw [haddr] at hother
        rw [hfs]
        exact hblk _ hother
      refine ⟨?_, fun _ => hkept k q hq⟩
      apply View.at_congr (I := fun j' => j' = j)
      · intro _ _
        rfl
      · rintro ⟨j', k'⟩ a q hj' hq -
        cases hj'
        exact hkept k' q hq.tail
      · rfl
      · exact hq

/-- An empty file with so many links, open in one process, and a call of the super user. -/
def linkedFile (nlink : ℤ) : OpenCall where
  fs := oneFile.fs
  ino := { empty with iMode := 0x8180, iNlink := nlink }
  slot := 0
  number := 0
  u := default
  uOfiles := fun _ => none
  mFile := fun _ => ⟨0, 0, 0, 0⟩
  eax := 0

theorem existing_linkedFile {nlink : ℤ} (h : 0 < nlink) : Existing (linkedFile nlink) :=
  ⟨fun _ => rfl, by change (0 : ℤ) ≤ 1; decide, h, rfl⟩

theorem emptied_iff_linkedFile : ∃ c',
    creat (fun _ _ => 0) 0 (fun _ => none) (linkedFile 1) 0x180 = .ok c' ∧
      Emptied oneFile.view.addr () 0x180 (linkedFile 1) c' := by
  have hcreat : ∃ c', creat (fun _ _ => 0) 0 (fun _ => none) (linkedFile 1) 0x180 = .ok c' ∧
      c'.fs.uError = .NOERROR := ⟨_, rfl, rfl⟩
  obtain ⟨c', hcreat, hok⟩ := hcreat
  have hsound := inv_oneFile.sound
  refine ⟨c', hcreat, (emptied_iff (existing_linkedFile (by decide)) hsound.freeList hsound.apart rfl
    (by decide) hcreat hok).mpr ⟨rfl, by decide⟩⟩

/-- The other name of a file with two names is left without a link of its own. -/
theorem not_emptied : ¬ ∀ (buffer : ℤ → Block) (time : ℤ) (openDevice : Inode → Option ErrorCode)
    (addr : Unit → ℕ → ℤ) (L : List ℤ) (c c' : OpenCall) (mode : UInt32), Existing c →
      FreeList c.fs L → Apart ⟨c.fs.blk, addr⟩ L → addr () = c.current.iAddr →
      c.current.iMode &&& IFMT = 0 → creat buffer time openDevice c mode = .ok c' →
      c'.fs.uError = .NOERROR → Emptied addr () mode c c' := by
  intro hall
  have hcreat : ∃ c', creat (fun _ _ => 0) 0 (fun _ => none) (linkedFile 2) 0x180 = .ok c' ∧
      c'.fs.uError = .NOERROR ∧ c'.current.iNlink = 1 := ⟨_, rfl, rfl, rfl⟩
  obtain ⟨c', hcreat, hok, hnlink⟩ := hcreat
  have hsound := inv_oneFile.sound
  have hemptied := hall _ _ _ _ _ _ _ _ (existing_linkedFile (by decide)) hsound.freeList
    hsound.apart rfl (by decide) hcreat hok
  have htwo : c'.current.iNlink = 2 := hemptied.nlink
  rw [hnlink] at htwo
  exact absurd htwo (by decide)

end FileManager
end UnixV6pp
