import UnixV6pp.Fs.Ownership

/-!
# The bytes of a file

A file is an array of bytes, zero where nothing was ever written, and a size.
The block tree holds such an array for each of its files: mapping a block changes
none of them, overwriting a block changes one of them in one place.

## Main definitions

* `View.byte` — the byte at an offset, as the block tree and the blocks hold it.
* `FlatFile` — a file as an array of bytes.
* `Holds` — the files of a device hold what the arrays say.

## Main results

* `bmap_cases` — mapping a block changes no byte of any file.
* `Inv.write_byte` — overwriting a block changes its bytes alone.
* `FlatFile.write_write` — a write may be made in parts.
-/

namespace UnixV6pp
namespace Inode

open Words FileSystem IndexTree BufferManager

/-- The size no file exceeds. -/
def maxFileSize : ℕ := 33030 * 512

variable {ι : Type*}

/-- The byte at an offset of a file; a hole reads as zero. -/
def View.byte (v : View ι) (i : ι) (o : ℕ) : UInt8 :=
  if v.block i (o / 512) = 0 then 0 else v.blk (v.block i (o / 512)) (o % 512)

theorem div_lt_of_lt {o : ℕ} (h : o < maxFileSize) : o / 512 < 33030 := by
  unfold maxFileSize at h; omega

/-- Mapping a logical block changes no byte. -/
theorem Extends.byte_eq {v v' : View ι} {i : ι} {lbn : ℕ}
    (h : Extends (i, (lbnPath lbn).1) (lbnPath lbn).2 v v') (hlbn : lbn < 33030) (j : ι) {o : ℕ}
    (ho : o < maxFileSize) : v'.byte j o = v.byte j o := by
  obtain ⟨hq, hlen⟩ := isPath_lbnPath (div_lt_of_lt ho)
  by_cases h0 : v.block j (o / 512) = 0
  · by_cases hnew : v'.block j (o / 512) = 0
    · rw [View.byte, View.byte, if_pos h0, if_pos hnew]
    · -- only the block that is mapped can be new
      have hthis : (j, (lbnPath (o / 512)).1) = (i, (lbnPath lbn).1) ∧
          (lbnPath (o / 512)).2 <:+ (lbnPath lbn).2 := by
        by_contra hnot
        exact hnew ((h.at_eq (j, _) _ hq (.inr hnot)).trans h0)
      obtain ⟨htree, hsuffix⟩ := hthis
      obtain ⟨rfl, hk⟩ := Prod.mk.inj htree
      have hlen' := (isPath_lbnPath hlbn).2
      have hpath : (lbnPath (o / 512)).2 = (lbnPath lbn).2 :=
        hsuffix.eq_of_length (by rw [hlen, hlen', hk])
      have heq : o / 512 = lbn := lbnPath_inj (div_lt_of_lt ho) hlbn (Prod.ext hk hpath)
      rw [heq] at h0 hnew
      rw [View.byte, View.byte, heq, if_pos h0, if_neg hnew]
      exact congrFun (h.blk_new hlen' h0 hnew) _
  · have hat : v'.block j (o / 512) = v.block j (o / 512) := h.at_eq (j, _) _ hq (.inl h0)
    have hblk := h.blk_eq (j, _) _ hq hlen h0
    rw [View.byte, View.byte, hat, if_neg h0, if_neg h0]
    exact congrFun hblk _

/-- A file that is not a device has the mode of neither kind of device. -/
theorem mode_of_plain {ino : Inode} (h : ino.isDevice = false) :
    ino.iMode &&& (IFBLK &&& IFCHR) = 0 ∧ ino.iMode &&& IFMT ≠ IFBLK ∧
      ino.iMode &&& IFMT ≠ IFCHR := by
  have h0 : ino.iMode &&& (IFCHR &&& IFBLK) = 0 := by simpa [isDevice] using h
  have hcut : ino.iMode &&& (IFCHR &&& IFBLK) = (ino.iMode &&& IFMT) &&& IFCHR := by
    rw [UInt32.and_assoc]
    rfl
  refine ⟨by rw [UInt32.and_comm IFBLK]; exact h0, ?_, ?_⟩
  · intro heq
    rw [hcut, heq] at h0
    exact absurd h0 (by decide)
  · intro heq
    rw [hcut, heq] at h0
    exact absurd h0 (by decide)

variable [DecidableEq ι] {d : Files ι} {L : List ℤ} {i : ι}

/-- **`Bmap` as the transfers use it**: it fails for want of a block, or the block
is there and every byte of every file is what it was. -/
theorem bmap_cases (h : Inv d L) (herr : d.fs.uError = .NOERROR) {lbn : ℕ} (hlbn : lbn < 33030) :
    ∃ r ino' fs', Inode.bmap d.fs (d.inodes i) lbn = .ok (r, ino', fs') ∧
      (r = 0 ∧ fs'.uError = .ENOSPC ∨
        r ≠ 0 ∧ fs'.uError = .NOERROR ∧ SameFile (d.inodes i) ino' ∧
        (∃ L', Inv (d.set fs' i ino') L') ∧ (d.set fs' i ino').view.block i lbn = r ∧
        ∀ j o, o < maxFileSize → (d.set fs' i ino').view.byte j o = d.view.byte j o) := by
  obtain ⟨r, ino', fs', hbmap, hcase⟩ := bmap_spec h.sound (d.addr_view i) hlbn
  refine ⟨r, ino', fs', hbmap, hcase.imp_right fun hm => ?_⟩
  have herr' := hm.uError_eq.trans herr
  obtain ⟨hinv, hne, hblock, -⟩ := h.bmap hlbn hbmap (by rw [herr']; decide)
  refine ⟨hne, herr', hm.same, hinv, hblock, fun j o ho => ?_⟩
  rw [Files.view_set]
  exact hm.extends_.byte_eq hlbn j ho

/-- **Overwriting a block** changes the bytes of that block alone. -/
theorem Inv.write_byte (h : Inv d L) {lbn : ℕ} (hlbn : lbn < 33030) (hne : d.view.block i lbn ≠ 0)
    (data : Block) (j : ι) {o : ℕ} (ho : o < maxFileSize) :
    (Files.mk { d.fs with blk := Function.update d.fs.blk (d.view.block i lbn) data }
      d.inodes).view.byte j o =
      if o / 512 = lbn ∧ j = i then data (o % 512) else d.view.byte j o := by
  obtain ⟨hq, -⟩ := isPath_lbnPath (div_lt_of_lt ho)
  obtain ⟨hP, hlen⟩ := isPath_lbnPath hlbn
  have hat : (Files.mk { d.fs with blk := Function.update d.fs.blk (d.view.block i lbn) data }
      d.inodes).view.block j (o / 512) = d.view.block j (o / 512) :=
    (h.sound.write (t := (i, (lbnPath lbn).1)) hP hlen hne rfl data).2 (j, _) _ hq
  rw [View.byte, hat]
  by_cases hthis : o / 512 = lbn ∧ j = i
  · rw [if_pos hthis]
    obtain ⟨rfl, rfl⟩ := hthis
    rw [if_neg hne]
    exact congrFun (Function.update_self ..) _
  · rw [if_neg hthis, View.byte]
    by_cases h0 : d.view.block j (o / 512) = 0
    · rw [if_pos h0, if_pos h0]
    · rw [if_neg h0, if_neg h0]
      refine congrFun (Function.update_of_ne ?_ _ _) _
      intro heq
      obtain ⟨htree, hpath⟩ := h.sound.apart.owned (j, _) _ (i, _) _ hq hP h0 heq
      obtain ⟨hji, hk⟩ := Prod.mk.inj htree
      exact hthis ⟨lbnPath_inj (div_lt_of_lt ho) hlbn (Prod.ext hk hpath), hji⟩

/-! ### Files as arrays -/

/-- A file as an array of bytes, zero from its end on. -/
structure FlatFile where
  size : ℕ
  bytes : ℕ → UInt8
  zero_of_le : ∀ o, size ≤ o → bytes o = 0

namespace FlatFile

/-- A file that was never written. -/
def new : FlatFile := ⟨0, fun _ => 0, fun _ _ => rfl⟩

/-- The file after `n` bytes were written at `off`. -/
def write (f : FlatFile) (off n : ℕ) (data : ℕ → UInt8) : FlatFile where
  size := if n = 0 then f.size else max f.size (off + n)
  bytes o := if off ≤ o ∧ o < off + n then data (o - off) else f.bytes o
  zero_of_le := by
    intro o ho
    have hout : ¬ (off ≤ o ∧ o < off + n) ∧ f.size ≤ o := by split at ho <;> omega
    rw [if_neg hout.1]
    exact f.zero_of_le o hout.2

@[ext] theorem ext {f g : FlatFile} (hsize : f.size = g.size) (hbytes : ∀ o, f.bytes o = g.bytes o) :
    f = g := by
  cases f with
  | mk size bytes _ =>
    cases g with
    | mk size' bytes' _ =>
      cases hsize
      cases funext hbytes
      rfl

variable (f : FlatFile) (off m n : ℕ) (data : ℕ → UInt8)

theorem write_zero : f.write off 0 data = f := by
  apply ext
  · rfl
  · intro o
    exact if_neg (by omega)

/-- A write may be made in two parts. -/
theorem write_write :
    (f.write off m data).write (off + m) n (fun k => data (m + k)) = f.write off (m + n) data := by
  apply ext
  · simp only [write]
    split <;> split <;> split <;> omega
  · intro o
    simp only [write]
    by_cases hm : off ≤ o ∧ o < off + m
    · rw [if_neg (by omega), if_pos hm, if_pos (by omega)]
    · by_cases hn : off + m ≤ o ∧ o < off + m + n
      · rw [if_pos hn, if_pos (by omega)]
        congr 1
        omega
      · rw [if_neg hn, if_neg hm, if_neg (by omega)]

end FlatFile

/-- The files of the device hold what the arrays say. -/
structure Holds (d : Files ι) (F : ι → FlatFile) : Prop where
  inv : ∃ L, Inv d L
  uError_eq : d.fs.uError = .NOERROR
  size_eq : ∀ i, (d.inodes i).iSize = (F i).size
  size_le : ∀ i, (F i).size ≤ maxFileSize
  byte_eq : ∀ i o, o < maxFileSize → d.view.byte i o = (F i).bytes o

variable {F : ι → FlatFile}

/-- Mapping a block. -/
theorem Holds.bmap (h : Holds d F) (i : ι) {lbn : ℕ} (hlbn : lbn < 33030) :
    ∃ r ino' fs', Inode.bmap d.fs (d.inodes i) lbn = .ok (r, ino', fs') ∧
      (r = 0 ∧ fs'.uError = .ENOSPC ∨
        r ≠ 0 ∧ (d.set fs' i ino').view.block i lbn = r ∧ SameFile (d.inodes i) ino' ∧
          Holds (d.set fs' i ino') F) := by
  obtain ⟨L, hinv⟩ := h.inv
  obtain ⟨r, ino', fs', hbmap, hcase⟩ := bmap_cases (i := i) hinv h.uError_eq hlbn
  refine ⟨r, ino', fs', hbmap, hcase.imp_right ?_⟩
  intro hok
  obtain ⟨hne, herr, hsame, hinv', hblock, hbyte⟩ := hok
  refine ⟨hne, hblock, hsame, hinv', herr, ?_, h.size_le, ?_⟩
  · intro j
    obtain ⟨iFlag', hino⟩ := hsame
    by_cases hj : j = i
    · subst hj
      rw [Files.inodes_set_self, hino]
      exact h.size_eq j
    · rw [Files.inodes_set_of_ne d i ino' fs' hj]
      exact h.size_eq j
  · intro j o ho
    rw [hbyte j o ho]
    exact h.byte_eq j o ho

/-- Other fields of an inode change. -/
theorem Holds.other (h : Holds d F) {ino' : Inode} (haddr : ino'.iAddr = (d.inodes i).iAddr)
    (hdev : ino'.iMode = (d.inodes i).iMode) (hnumber : ino'.iNumber = (d.inodes i).iNumber)
    (hsize : ino'.iSize = (d.inodes i).iSize) : Holds (d.set d.fs i ino') F := by
  obtain ⟨L, hinv⟩ := h.inv
  have hview : (d.set d.fs i ino').view = d.view := by
    have heq : ino'.iAddr = d.view.addr i := haddr
    rw [Files.view_set, heq, Function.update_eq_self]
    rfl
  have hplain : ino'.isDevice = false := by
    rw [isDevice, hdev]
    exact hinv.plain i
  refine ⟨⟨L, (hinv.other haddr hplain (hnumber ▸ hinv.number_lt i)).1⟩, h.uError_eq, ?_,
    h.size_le, ?_⟩
  · intro j
    by_cases hj : j = i
    · subst hj
      rw [Files.inodes_set_self, hsize]
      exact h.size_eq j
    · rw [Files.inodes_set_of_ne d i ino' d.fs hj]
      exact h.size_eq j
  · intro j o ho
    rw [hview]
    exact h.byte_eq j o ho

end Inode
end UnixV6pp
