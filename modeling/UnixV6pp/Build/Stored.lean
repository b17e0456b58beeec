import UnixV6pp.Build.ImageMap
import UnixV6pp.Fs.FileData

/-!
# The file in the image

The blocks of a file are stored one after the other, so an index block is wanted with the first
of the blocks below it.

## Main definitions

* `blocksNeeded` — how many blocks a file takes up.
* `Stored` — the bytes of the image after some of the blocks.

## Main results

* `Stored.writeStream` — one block.
* `Stored.writeItems` — the loop.
* `setCommonFileInode_spec` — **what is stored**: all but the last 512 bytes if the length is a
  multiple of 512.
-/

namespace UnixV6pp
namespace Build

open Words FileSystem Inode Build.File CommonFile

/-! ### Blocks wanted -/

/-- The blocks taken for a logical block when all blocks in front of it are there. -/
def newBlocks (lbn : ℕ) : ℕ :=
  if lbn < 6 then 1
  else if lbn < 262 then if (lbn - 6) % 128 = 0 then 2 else 1
  else if (lbn - 262) % (128 * 128) = 0 then 3
  else if (lbn - 262) % 128 = 0 then 2
  else 1

/-- The blocks taken for the first `n` logical blocks of a file. -/
def blocksNeeded : ℕ → ℕ
  | 0 => 0
  | n + 1 => blocksNeeded n + newBlocks n

section Missing

variable {ι : Type*} {v : View ι} {t : ι × ℕ} {q : List ℕ} {j : ℕ}

theorem gap_le_one (v : View ι) (t : ι × ℕ) (q : List ℕ) : gap v t q ≤ 1 := by
  unfold gap
  split <;> omega

theorem gap_eq_zero (h : v.at t q ≠ 0) : gap v t q = 0 := if_neg h

/-- An index block above one that is there is there too. -/
theorem gap_tail_eq_zero (h : v.at t (j :: q) ≠ 0) : gap v t q = 0 :=
  gap_eq_zero (View.at_tail_ne h)

/-- An index block is wanted with the first block below it. -/
theorem missing_le {i : ι} {lbn : ℕ} (hmapped : ∀ k < lbn, v.block i k ≠ 0) :
    missing v (i, (lbnPath lbn).1) (lbnPath lbn).2 ≤ newBlocks lbn := by
  unfold newBlocks
  by_cases h6 : lbn < 6
  · have hpath : lbnPath lbn = (lbn, []) := if_pos h6
    rw [if_pos h6, hpath]
    exact gap_le_one v _ _
  rw [if_neg h6]
  by_cases h262 : lbn < 262
  · have hpath : lbnPath lbn = ((lbn - 6) / 128 + 6, [(lbn - 6) % 128]) := by
      rw [lbnPath, if_neg h6, if_pos h262]
    rw [if_pos h262, hpath]
    simp only [missing]
    have hroot := gap_le_one v (i, (lbn - 6) / 128 + 6) []
    have hlast := gap_le_one v (i, (lbn - 6) / 128 + 6) [(lbn - 6) % 128]
    split
    · omega
    next h0 =>
      -- the block in front of it is below the same index block
      have hne := hmapped (lbn - 1) (by omega)
      have hsame : (lbn - 1 - 6) / 128 + 6 = (lbn - 6) / 128 + 6 := by omega
      have hpath' : lbnPath (lbn - 1) = ((lbn - 6) / 128 + 6, [(lbn - 1 - 6) % 128]) := by
        rw [lbnPath, if_neg (by omega), if_pos (by omega), hsame]
      rw [View.block, hpath'] at hne
      have hzero : gap v (i, (lbn - 6) / 128 + 6) [] = 0 := gap_tail_eq_zero hne
      omega
  · have hpath : lbnPath lbn = ((lbn - 262) / (128 * 128) + 8,
        [(lbn - 262) % 128, (lbn - 262) / 128 % 128]) := by
      rw [lbnPath, if_neg h6, if_neg h262]
    rw [if_neg h262, hpath]
    simp only [missing]
    have hroot := gap_le_one v (i, (lbn - 262) / (128 * 128) + 8) []
    have hmid := gap_le_one v (i, (lbn - 262) / (128 * 128) + 8) [(lbn - 262) / 128 % 128]
    have hlast := gap_le_one v (i, (lbn - 262) / (128 * 128) + 8)
      [(lbn - 262) % 128, (lbn - 262) / 128 % 128]
    split
    · omega
    next h0 =>
      have hne := hmapped (lbn - 1) (by omega)
      have hsame : (lbn - 1 - 262) / (128 * 128) + 8 = (lbn - 262) / (128 * 128) + 8 := by omega
      have hpath' : lbnPath (lbn - 1) = ((lbn - 262) / (128 * 128) + 8,
          [(lbn - 1 - 262) % 128, (lbn - 1 - 262) / 128 % 128]) := by
        rw [lbnPath, if_neg (by omega), if_neg (by omega), hsame]
      rw [View.block, hpath'] at hne
      have hzero : gap v (i, (lbn - 262) / (128 * 128) + 8) [] = 0 :=
        gap_tail_eq_zero (View.at_tail_ne hne)
      split
      · omega
      next h1 =>
        have hmid' : gap v (i, (lbn - 262) / (128 * 128) + 8) [(lbn - 1 - 262) / 128 % 128] = 0 :=
          gap_tail_eq_zero hne
        have hsecond : (lbn - 1 - 262) / 128 % 128 = (lbn - 262) / 128 % 128 := by omega
        rw [hsecond] at hmid'
        omega

end Missing

/-! ### The bytes of the image -/

/-- The file as the blocks of the image hold it. -/
def imageView (d : Disk) (inode : InodeStr) : View Unit := ⟨d.blk, fun _ => inode.iAddr⟩

/-- The same as the only file of a device. -/
def imageFiles (d : Disk) (inode : InodeStr) : Files Unit :=
  ⟨d.fs, fun _ => { Inode.empty with iAddr := inode.iAddr }⟩

/-- The first `m` blocks are there, and the first `n` bytes are those of the content. -/
structure Stored (content : List UInt8) (m n : ℕ) (inode : InodeStr) (d : Disk) (L : List ℤ) :
    Prop where
  sound : Sound d.fs (fun _ : Unit => inode.iAddr) L
  mapped : ∀ lbn < m, (imageView d inode).block () lbn ≠ 0
  byte_eq : ∀ o < maxFileSize,
    (imageView d inode).byte () o = if o < n then content.getD o 0 else 0

variable {content : List UInt8} {inode : InodeStr} {d : Disk} {L : List ℤ} {m n : ℕ}

/-- Inodes that name no block reach none. -/
theorem at_new {ι : Type*} {v : View ι} (haddr : ∀ i k, v.addr i k = 0) (t : ι × ℕ) (q : List ℕ) :
    v.at t q = 0 := by
  unfold View.at
  rw [haddr]
  exact IndexTree.walk_zero q

/-- Their trees are apart. -/
theorem sound_new {ι : Type*} {addr : ι → ℕ → ℤ} (h : FreeList d.fs L) (hne : d.sNfree ≠ 0)
    (haddr : ∀ i k, addr i k = 0) : Sound d.fs addr L := by
  have hat : ∀ (t : ι × ℕ) q, (⟨d.fs.blk, addr⟩ : View ι).at t q = 0 := at_new haddr
  refine ⟨h, hne, ?_, ?_, ?_⟩
  · intro t p u q _ _ hne'
    exact absurd (hat t p) hne'
  · intro t p _ hne'
    exact absurd (hat t p) hne'
  · intro t p _ hmem
    rw [hat t p] at hmem
    exact (h.data 0 hmem).ne_zero rfl

/-- Nothing is stored in an inode that names no block. -/
theorem stored_new (h : FreeList d.fs L) (hne : d.sNfree ≠ 0) (haddr : ∀ k, inode.iAddr k = 0) :
    Stored content 0 0 inode d L := by
  refine ⟨sound_new h hne fun _ => haddr, fun lbn hlbn => absurd hlbn (Nat.not_lt_zero lbn), ?_⟩
  intro o _
  have hblock : (imageView d inode).block () (o / 512) = 0 := at_new (fun _ => haddr) _ _
  rw [View.byte, if_pos hblock, if_neg (Nat.not_lt_zero o)]

theorem Stored.inv (h : Stored content m n inode d L) : Inv (imageFiles d inode) L := by
  have hempty : Inode.empty.isDevice = false := by decide
  have hnumber : Inode.empty.iNumber < inodeCount := by decide
  exact ⟨h.sound, fun _ => hempty, fun _ => hnumber⟩

/-- **Bytes are put down in a block** that is there, clear behind the bytes stored so far. -/
theorem Stored.write (h : Stored content (m + 1) (512 * m) inode d L) (hm : m < 33030)
    {count : ℕ} (hcount : count ≤ 512) {r : ℤ} (hr : (imageView d inode).block () m = r) :
    Stored content (m + 1) (512 * m + count) inode
      { d with blk := Function.update d.blk r fun o =>
          if 0 ≤ o ∧ o < 0 + count then readFrom content m (o - 0) else d.blk r o } L := by
  have hne : (imageView d inode).block () m ≠ 0 := h.mapped m (Nat.lt_succ_self m)
  have hinv := h.inv
  obtain ⟨hP, hlen⟩ := isPath_lbnPath hm
  subst hr
  set data : Block := fun o =>
    if 0 ≤ o ∧ o < 0 + count then readFrom content m (o - 0)
    else d.blk ((imageView d inode).block () m) o with hdata
  obtain ⟨hsound, hat⟩ := h.sound.write (t := ((), (lbnPath m).1)) hP hlen hne rfl data
  refine ⟨hsound, fun lbn hlbn => ?_, fun o ho => ?_⟩
  · have hsame := hat ((), (lbnPath lbn).1) _ (isPath_lbnPath (show lbn < 33030 by omega)).1
    exact (congrArg (· ≠ 0) hsame).mpr (h.mapped lbn hlbn)
  · have hbyte := hinv.write_byte hm hne data () ho
    have hold := h.byte_eq o ho
    refine Eq.trans hbyte ?_
    by_cases hblock : o / 512 = m
    · rw [if_pos ⟨hblock, rfl⟩, hdata]
      dsimp only
      by_cases hin : o % 512 < count
      · have hoff : 512 * m + (o % 512 - 0) = o := by omega
        rw [if_pos (by omega), if_pos (by omega), readFrom, hoff]
      · rw [if_neg (by omega), if_neg (by omega)]
        rw [View.byte, hblock, if_neg hne, if_neg (by omega)] at hold
        exact hold
    · rw [if_neg (fun hall => hblock hall.1)]
      refine Eq.trans hold ?_
      by_cases hlt : o < 512 * m
      · rw [if_pos hlt, if_pos (by omega)]
      · rw [if_neg hlt, if_neg (by omega)]

/-- **One block is stored.** -/
theorem Stored.writeStream (h : Stored content m (512 * m) inode d L) (hm : m < 33030)
    {count : ℕ} (hcount : count ≤ 512) (hL : newBlocks m ≤ L.length) :
    ∃ inode' d' L', File.writeStream d inode (readFrom content m) (m * 512) count =
        some (inode', d') ∧
      inode' = { inode with iAddr := inode'.iAddr } ∧ L.length ≤ L'.length + newBlocks m ∧
      Stored content (m + 1) (512 * m + count) inode' d' L' := by
  have hmissing := missing_le (i := ()) h.mapped
  obtain ⟨r, inode', d', hbmap, hsame, hsound, hat, hne, hext⟩ :=
    bmap_spec h.sound (i := ()) rfl hm (Nat.le_trans hmissing hL)
  have haddr : Function.update (fun _ : Unit => inode.iAddr) () inode'.iAddr =
      fun _ => inode'.iAddr := by
    funext u
    exact Function.update_self ..
  rw [haddr] at hsound hat hext
  have hgrown : Stored content (m + 1) (512 * m) inode' d'
      (L.drop (missing ⟨d.blk, fun _ => inode.iAddr⟩ ((), (lbnPath m).1) (lbnPath m).2)) := by
    refine ⟨hsound, fun lbn hlbn => ?_, fun o ho => ?_⟩
    · rcases Nat.lt_succ_iff_lt_or_eq.mp hlbn with hlt | rfl
      · have hold := h.mapped lbn hlt
        have hkeep := hext.at_eq ((), (lbnPath lbn).1) _
          (isPath_lbnPath (show lbn < 33030 by omega)).1 (.inl hold)
        exact (congrArg (· ≠ 0) hkeep).mpr hold
      · exact (congrArg (· ≠ 0) hat).mpr hne
    · exact (hext.byte_eq hm () ho).trans (h.byte_eq o ho)
  have hdiv : m * 512 / 512 = m := Nat.mul_div_cancel m (by omega)
  have hmod : m * 512 % 512 = 0 := Nat.mul_mod_left m 512
  refine ⟨inode', _, _, ?_, hsame, ?_, hgrown.write hm hcount hat⟩
  · rw [File.writeStream, hdiv, hmod, hbmap]
    rfl
  · rw [List.length_drop]
    have : missing ⟨d.blk, fun _ : Unit => inode.iAddr⟩ ((), (lbnPath m).1) (lbnPath m).2 ≤
        newBlocks m := hmissing
    omega

/-- **The loop** stores block after block. -/
theorem Stored.writeItems (h : Stored content 0 0 inode d L) {n : ℕ} (hn : n ≤ 33030)
    (hL : blocksNeeded n ≤ L.length) :
    ∃ inode' d' L', CommonFile.writeItems content inode d n = some (inode', d') ∧
      inode' = { inode with iAddr := inode'.iAddr } ∧ L.length ≤ L'.length + blocksNeeded n ∧
      Stored content n (512 * n) inode' d' L' := by
  induction n with
  | zero => exact ⟨inode, d, L, rfl, rfl, Nat.le_refl _, h⟩
  | succ n ih =>
    rw [blocksNeeded] at hL
    obtain ⟨inode₁, d₁, L₁, hloop, hsame₁, hlen₁, h₁⟩ := ih (by omega) (by omega)
    obtain ⟨inode₂, d₂, L₂, hwrite, hsame₂, hlen₂, h₂⟩ :=
      h₁.writeStream (by omega) (Nat.le_refl 512) (by omega)
    refine ⟨inode₂, d₂, L₂, ?_, ?_, ?_, h₂⟩
    · rw [CommonFile.writeItems, hloop]
      exact hwrite
    · rw [hsame₂, hsame₁]
    · rw [blocksNeeded]
      omega

/-- How many blocks the builder gives to a file; one to a file without bytes. -/
def itemCount (fileLength : ℕ) : ℕ :=
  fileLength / 512 + (if fileLength % 512 = 0 then 0 else 1) - 1 + 1

/-- How many bytes of a file are stored. -/
def storedLength (fileLength : ℕ) : ℕ :=
  512 * (fileLength / 512 + (if fileLength % 512 = 0 then 0 else 1) - 1) + fileLength % 512

theorem storedLength_eq (n : ℕ) :
    storedLength n = if n ≠ 0 ∧ n % 512 = 0 then n - 512 else n := by
  unfold storedLength
  split_ifs <;> omega

theorem lt_itemCount {n lbn : ℕ} (h : 512 * lbn < n) : lbn < itemCount n := by
  unfold itemCount
  split_ifs <;> omega

theorem itemCount_le {n : ℕ} (h : n ≤ maxFileSize) : itemCount n ≤ 33030 := by
  unfold itemCount
  unfold maxFileSize at h
  split_ifs <;> omega

/-- **What is stored** of a file for which there is enough space. -/
theorem setCommonFileInode_spec (now : ℤ) (h : FreeList d.fs L) (haddr : ∀ k, inode.iAddr k = 0)
    (hsize : content.length ≤ maxFileSize)
    (hspace : blocksNeeded (itemCount content.length) ≤ L.length) :
    ∃ inode' d' L', CommonFile.setCommonFileInode now content inode d = some (inode', d') ∧
      inode'.iSize = content.length ∧ inode'.iMode = CommonFile.mode ∧
      Stored content (itemCount content.length) (storedLength content.length) inode' d' L' := by
  have hcount := itemCount_le hsize
  have hne : d.sNfree ≠ 0 := by
    have hpos : 0 < L.length := by
      unfold itemCount blocksNeeded newBlocks at hspace
      split_ifs at hspace <;> omega
    obtain ⟨b, L, rfl⟩ := List.exists_cons_of_length_pos hpos
    exact h.nfree_ne_zero
  set inode₀ : InodeStr := { File.setCommonFileInode now inode with
    iMode := CommonFile.mode, iSize := content.length } with hinode₀
  have h₀ : Stored content 0 0 inode₀ d L := stored_new h hne haddr
  set k := content.length / 512 + (if content.length % 512 = 0 then 0 else 1) - 1 with hk
  have hitems : itemCount content.length = k + 1 := rfl
  rw [hitems] at hcount hspace ⊢
  rw [blocksNeeded] at hspace
  have hk' : k < 33030 := by omega
  obtain ⟨inode₁, d₁, L₁, hloop, hsame₁, hlen₁, h₁⟩ := h₀.writeItems (Nat.le_of_lt hk') (by omega)
  have hrest : content.length % 512 ≤ 512 := Nat.le_of_lt (Nat.mod_lt _ (by omega))
  obtain ⟨inode₂, d₂, L₂, hwrite, hsame₂, -, h₂⟩ := h₁.writeStream hk' hrest (by omega)
  have hsize₁ : inode₁.iSize = content.length := by rw [hsame₁]
  have hmod : (inode₁.iSize % 512).toNat = content.length % 512 := by rw [hsize₁]; omega
  refine ⟨inode₂, d₂, L₂, ?_, ?_, ?_, h₂⟩
  · change (CommonFile.writeItems content inode₀ d k >>= fun r =>
      File.writeStream r.2 r.1 (readFrom content k) (k * 512) (r.1.iSize % 512).toNat) = _
    rw [hloop]
    change File.writeStream d₁ inode₁ (readFrom content k) (k * 512) (inode₁.iSize % 512).toNat = _
    rw [hmod]
    exact hwrite
  · rw [hsame₂]
    exact hsize₁
  · rw [hsame₂, hsame₁]

end Build
end UnixV6pp
