import UnixV6pp.Build.Stored
import UnixV6pp.Fs.Located

/-!
# Reading a stored file

A file without holes is read without taking a block, so `ReadI` of a file the builder has stored
brings back what was stored.

## Main results

* `Located.readI` — `ReadI` of a file without holes.
* `readBack_iff` — **the content comes back** exactly where its last 512 bytes are not lost.
* `not_readBack` — a file of 512 bytes reads back as zeros.
-/

namespace UnixV6pp
namespace Inode

open Words FileSystem IndexTree BufferManager

variable {s : FsState} {ino : Inode} {f : FlatFile} {off c n fuel : ℕ}

/-- Only the numbers and the size of the inode matter. -/
theorem Located.of_inode (h : Located s ino f) {ino' : Inode} (haddr : ino'.iAddr = ino.iAddr)
    (hsize : ino'.iSize = ino.iSize) : Located s ino' f := by
  have hblock : ∀ lbn, blockOf s ino' lbn = blockOf s ino lbn := fun lbn => by
    rw [blockOf, blockOf, haddr]
  refine ⟨hsize.trans h.size_eq, h.size_le, ?_, ?_, ?_⟩
  · intro lbn hlbn
    rw [hblock]
    exact h.mapped lbn hlbn
  · intro o ho
    rw [hblock]
    exact h.byte_eq o ho
  · intro lbn lbn' hlbn hlbn'
    rw [hblock, hblock]
    exact h.apart lbn lbn' hlbn hlbn'

/-- The bytes of one block are brought to memory. -/
theorem Located.iomoveOut (h : Located s ino f) (base : ℤ) (mem : ℤ → UInt8)
    (hn : n ≤ 512 - off % 512) (hend : off + n ≤ f.size) :
    Inode.iomoveOut (s.blk (blockOf s ino (off / 512))) (off % 512 : ℕ) mem base n =
      .ok (f.read off n base mem) := by
  rw [Inode.iomoveOut, if_neg (by omega)]
  congr 1
  funext a
  rw [FlatFile.read]
  by_cases hin : base ≤ a ∧ a < base + n
  · have hbyte := h.byte_eq (off + (a - base).toNat) (by omega)
    have hblock : (off + (a - base).toNat) / 512 = off / 512 := by omega
    have hrest : (off + (a - base).toNat) % 512 = (((off % 512 : ℕ) : ℤ) + (a - base)).toNat := by
      omega
    rw [hblock, hrest] at hbyte
    rw [if_pos hin, if_pos hin]
    exact hbyte
  · rw [if_neg hin, if_neg hin]

/-- **The block `ReadI` reads next** in a file without holes. -/
theorem Located.readBlkno (h : Located s ino f) (hmode : ino.iMode &&& IFMT ≠ IFBLK)
    (base : ℤ) (c : ℕ) (mem : ℤ → UInt8) (hoff : off < f.size) (nbytes : ℤ) :
    ∃ r, Inode.readBlkno ⟨s, ino, ⟨base, off, c⟩, mem⟩ (off / 512 : ℕ) nbytes =
      .ok (some (blockOf s ino (off / 512), min nbytes (f.size - off)),
        ⟨s.ahead r, ino, ⟨base, off, c⟩, mem⟩) := by
  have hle := h.size_le
  have hsmall : maxFileSize < 2 ^ 31 := by decide
  have hne := h.mapped (off / 512) (by omega)
  obtain ⟨r, hbmap⟩ := bmap_mapped (div_lt_of_lt (show off < maxFileSize by omega)) hne
  have hremain : int32 (ino.iSize - off) = (f.size : ℤ) - off := by
    rw [h.size_eq, int32_of_bounds (by omega) (by omega)]
  refine ⟨r, ?_⟩
  unfold Inode.readBlkno
  simp only [if_pos hmode, hremain]
  rw [if_neg (by omega), hbmap, Except.ok_bind]
  simp only [if_neg hne]
  rfl

/-- **The loop of `ReadI`** in a file without holes. -/
theorem Located.readLoop (h : Located s ino f) (hmode : ino.iMode &&& IFMT ≠ IFBLK)
    (base : ℤ) (mem : ℤ → UInt8) (herr : s.uError = .NOERROR) (hoff : off < 2 ^ 31) (hfuel : c ≤ fuel)
    (hn : n = min c (f.size - off)) :
    ∃ t, Inode.readLoop fuel ⟨s, ino, ⟨base, off, c⟩, mem⟩ = .ok t ∧
      t.mem = f.read off n base mem ∧ t.io.mCount = (c - n : ℕ) ∧ t.fs.uError = .NOERROR := by
  have hsize := h.size_le
  have hsmall : maxFileSize < 2 ^ 31 := by decide
  induction fuel generalizing s ino base off c n mem with
  | zero =>
    have hzero : n = 0 := by omega
    subst hzero
    exact ⟨_, rfl, by rw [FlatFile.read_zero], rfl, herr⟩
  | succ fuel ih =>
    by_cases hc : c = 0
    · have hzero : n = 0 := by omega
      subst hzero
      refine ⟨⟨s, ino, ⟨base, off, c⟩, mem⟩, ?_, by rw [FlatFile.read_zero], rfl, herr⟩
      rw [Inode.readLoop, if_pos (.inr (by rw [hc]; rfl))]
      rfl
    have hgo : ¬(s.uError ≠ .NOERROR ∨ (c : ℤ) = 0) := by
      rw [herr]
      simp only [ne_eq, not_true_eq_false, false_or]
      omega
    by_cases hend : f.size ≤ off
    · -- nothing is left behind the end of the file
      have hzero : n = 0 := by omega
      subst hzero
      have hstop : Inode.readBlkno ⟨s, ino, ⟨base, off, c⟩, mem⟩ (off / 512 : ℕ)
          (min (512 - ((off % 512 : ℕ) : ℤ)) c) = .ok (none, ⟨s, ino, ⟨base, off, c⟩, mem⟩) := by
        have hremain : int32 (ino.iSize - off) = (f.size : ℤ) - off := by
          rw [h.size_eq, int32_of_bounds (by omega) (by omega)]
        unfold Inode.readBlkno
        simp only [if_pos hmode, hremain]
        rw [if_pos (by omega)]
        rfl
      exact ⟨_, Inode.readLoop_end hgo rfl rfl hstop, by rw [FlatFile.read_zero], rfl, herr⟩
    · obtain ⟨r, hblk⟩ := h.readBlkno hmode base c mem
        (by omega : off < f.size) (min (512 - ((off % 512 : ℕ) : ℤ)) c)
      set m := min (min (512 - off % 512) c) (f.size - off) with hm
      have hmin : min (min (512 - ((off % 512 : ℕ) : ℤ)) c) ((f.size : ℤ) - off) = m := by omega
      have hmove := h.iomoveOut base mem (by omega : m ≤ 512 - off % 512) (by omega)
      have h' : Located (s.ahead r) { ino with iLastr := (off / 512 : ℕ) } f :=
        (h.ahead r).of_inode rfl rfl
      obtain ⟨t, hrest, hmem, hcount, herr'⟩ := ih h' hmode (base + m) (f.read off m base mem) herr
        (by omega : off + m < 2 ^ 31) (by omega : c - m ≤ fuel)
        (by omega : n - m = min (c - m) (f.size - (off + m)))
      refine ⟨t, ?_, ?_, ?_, herr'⟩
      · rw [hmin] at hblk
        rw [Inode.readLoop_next hgo rfl rfl hblk hmove]
        dsimp only
        rw [advance_cast base (by omega : m ≤ c) (by omega)]
        exact hrest
      · have hsum : m + (n - m) = n := by omega
        rw [hmem, FlatFile.read_read, hsum]
      · rw [hcount]
        congr 1
        omega

/-- **`ReadI`** of a file without holes. -/
theorem Located.readI (h : Located s ino f) (hplain : ino.isDevice = false)
    (base : ℤ) (mem : ℤ → UInt8) (herr : s.uError = .NOERROR) (hoff : off < 2 ^ 31)
    (hn : n = min c (f.size - off)) :
    ∃ t, Inode.readI ⟨s, ino, ⟨base, off, c⟩, mem⟩ = .ok t ∧
      t.mem = f.read off n base mem ∧ t.io.mCount = (c - n : ℕ) ∧ t.fs.uError = .NOERROR := by
  obtain ⟨-, hblk, hchr⟩ := mode_of_plain hplain
  by_cases hc : c = 0
  · have hzero : n = 0 := by omega
    subst hzero
    refine ⟨⟨s, ino, ⟨base, off, c⟩, mem⟩, ?_, by rw [FlatFile.read_zero], rfl, herr⟩
    rw [Inode.readI, if_pos (by rw [hc]; rfl)]
    rfl
  · have h' : Located s { ino with iFlag := ino.iFlag ||| IACC } f := h.of_inode rfl rfl
    obtain ⟨t, hloop, hrest⟩ := h'.readLoop hblk base mem herr hoff (Nat.le_succ c) hn
    refine ⟨t, ?_, hrest⟩
    have hc' : (c : ℤ) ≠ 0 := by omega
    rw [Inode.readI, if_neg hc']
    dsimp only
    rw [if_neg hchr]
    exact hloop

end Inode

namespace Build

open Words FileSystem Inode Build.File CommonFile

/-- A stored file as an array: the bytes behind `storedLength` are lost. -/
def storedFile (content : List UInt8) : FlatFile where
  size := content.length
  bytes o := if o < storedLength content.length then content.getD o 0 else 0
  zero_of_le o ho := by
    split
    · simp [List.getD_eq_getElem?_getD, ho]
    · rfl

theorem bytes_storedFile {content : List UInt8} {o : ℕ} (h : storedLength content.length ≤ o) :
    (storedFile content).bytes o = 0 := if_neg (by omega)

/-- What the builder stores lies on the disk without a hole. -/
theorem Stored.located {content : List UInt8} {inode : InodeStr} {d : Disk} {L : List ℤ}
    (h : Stored content (itemCount content.length) (storedLength content.length) inode d L)
    (hsize : inode.iSize = content.length) (hle : content.length ≤ maxFileSize) (number : ℤ) :
    Located d.fs (inode.load number) (storedFile content) := by
  have hlbn {lbn : ℕ} (hlt : 512 * lbn < content.length) : lbn < 33030 := by
    unfold maxFileSize at hle
    omega
  have hmapped {lbn : ℕ} (hlt : 512 * lbn < content.length) :
      (imageFiles d inode).view.block () lbn ≠ 0 := h.mapped lbn (lt_itemCount hlt)
  refine ⟨hsize, hle, fun lbn hlt => hmapped hlt, fun o ho => ?_, ?_⟩
  · have hbyte := h.byte_eq o (Nat.lt_of_lt_of_le ho hle)
    have hblock : (imageView d inode).block () (o / 512) ≠ 0 :=
      hmapped (show 512 * (o / 512) < content.length from
        Nat.lt_of_le_of_lt (Nat.mul_div_le o 512) ho)
    rw [View.byte, if_neg hblock] at hbyte
    exact hbyte
  · intro lbn lbn' hlt hlt' heq
    exact h.inv.block_inj (hlbn hlt) (hlbn hlt') (hmapped hlt) heq

/-- The file is stored, and the kernel reads its content from the image however many bytes it
asks for. -/
def ReadsBack (now number : ℤ) (content : List UInt8) (inode : InodeStr) (d : Disk) : Prop :=
  ∃ inode' d', CommonFile.setCommonFileInode now content inode d = some (inode', d') ∧
    inode'.iSize = content.length ∧
    ∀ (base : ℤ) (c : ℕ) (mem : ℤ → UInt8), ∃ t,
      Inode.readI ⟨d'.fs, inode'.load number, ⟨base, 0, c⟩, mem⟩ = .ok t ∧
        t.fs.uError = .NOERROR ∧ t.io.mCount = (c - min c content.length : ℕ) ∧
        t.mem = fun a => if base ≤ a ∧ a < base + (min c content.length : ℕ)
          then content.getD (a - base).toNat 0 else mem a

section

variable {content : List UInt8} {inode : InodeStr} {d : Disk} {L : List ℤ}

/-- The content comes back where the stored bytes are those of the content. -/
theorem readsBack_iff_bytes (now number : ℤ) (h : FreeList d.fs L)
    (haddr : ∀ k, inode.iAddr k = 0) (hsize : content.length ≤ maxFileSize)
    (hspace : blocksNeeded (itemCount content.length) ≤ L.length) :
    ReadsBack now number content inode d ↔
      ∀ o < content.length, (storedFile content).bytes o = content.getD o 0 := by
  obtain ⟨inode', d', L', hset, hsize', hmode, hstored⟩ :=
    setCommonFileInode_spec now h haddr hsize hspace
  have hloc := hstored.located hsize' hsize number
  have hmode0 : CommonFile.mode &&& (IFCHR &&& IFBLK) = 0 := by decide
  have hplain : (inode'.load number).isDevice = false := by
    have : inode'.iMode &&& (IFCHR &&& IFBLK) = 0 := by rw [hmode]; exact hmode0
    exact decide_eq_false (not_not_intro this)
  have hread (base : ℤ) (c : ℕ) (mem : ℤ → UInt8) : ∃ t,
      Inode.readI ⟨d'.fs, inode'.load number, ⟨base, (0 : ℕ), c⟩, mem⟩ = .ok t ∧
        t.mem = (storedFile content).read 0 (min c (content.length - 0)) base mem ∧
        t.io.mCount = (c - min c (content.length - 0) : ℕ) ∧ t.fs.uError = .NOERROR :=
    hloc.readI hplain base mem rfl (by decide) rfl
  constructor
  · rintro ⟨inode'', d'', hset', -, hall⟩ o ho
    cases hset.symm.trans hset'
    obtain ⟨t, ht, -, -, hmem⟩ := hall 0 content.length fun _ => 0
    obtain ⟨t', ht', hmem', -⟩ := hread 0 content.length fun _ => 0
    cases ht.symm.trans ht'
    have hbyte := congrFun (hmem'.symm.trans hmem) o
    have hin : (0 : ℤ) ≤ o ∧ (o : ℤ) < 0 + (min content.length (content.length - 0) : ℕ) := by
      omega
    rw [FlatFile.read, if_pos hin, if_pos (by omega)] at hbyte
    simpa using hbyte
  · intro hbytes
    refine ⟨inode', d', hset, hsize', fun base c mem => ?_⟩
    obtain ⟨t, ht, hmem, hcount, herr⟩ := hread base c mem
    refine ⟨t, ht, herr, hcount, hmem.trans ?_⟩
    funext a
    rw [FlatFile.read, Nat.sub_zero]
    split
    next hin => rw [Nat.zero_add]; exact hbytes _ (by omega)
    next => rfl

end

/-! ### One free block -/

/-- An image in which the block 1024 is free. -/
def oneBlockImage : Disk where
  sNfree := 2
  sFree := fun i => if i = 1 then 1024 else 0
  blk := fun _ _ => 0

/-- An inode as `FetchFreeInode` finds it. -/
def freeInode : InodeStr where
  iMode := 0
  iIlink := 0
  iUid := 0
  iGid := 0
  iSize := 0
  iAddr := fun _ => 0
  iAtime := 0
  iMtime := 0

theorem freeList_oneBlockImage : FreeList oneBlockImage.fs [1024] := by
  refine ⟨by decide, rfl, ?_, by decide, .inr ⟨2, rfl, ?_⟩⟩
  · simp [DataBlock, dataZoneStartSector]
  · exact .pop (Nat.le_refl 1) (by decide) (by decide) (.last rfl)

/-- A file of one block. -/
def oneBlockFile : List UInt8 := List.replicate 512 1

theorem length_oneBlockFile : oneBlockFile.length = 512 := List.length_replicate

end Build
end UnixV6pp
