import UnixV6pp.Fs.FileData

/-!
# Reading and writing files

What `WriteI` leaves is what one write to the array of the file leaves, and what
`ReadI` brings to memory is what the array holds there, however many blocks the
bytes lie in and wherever these have to be found or made.

## Main results

* `writeLoop_step`, `readLoop_step` — **one block.**
* `writeI_spec`, `readI_spec` — **one call.**
* `fileData_run` — **every run** of calls on any files of a device.
-/

namespace UnixV6pp
namespace Inode

open Words FileSystem IndexTree BufferManager

variable {ι : Type*}

/-- The transfer of `c` bytes at `off` between the file `i` and the memory at `base`. -/
def Files.transfer (d : Files ι) (i : ι) (base : ℤ) (off c : ℕ) (mem : ℤ → UInt8) : Transfer :=
  ⟨d.fs, d.inodes i, ⟨base, off, c⟩, mem⟩

theorem tdiv_cast (off : ℕ) : (off : ℤ).tdiv 512 = (off / 512 : ℕ) := by
  rw [Int.tdiv_eq_ediv_of_nonneg (by omega)]
  omega

theorem tmod_cast (off : ℕ) : (off : ℤ).tmod 512 = (off % 512 : ℕ) := by
  rw [Int.tmod_eq_emod_of_nonneg (by omega)]
  omega

/-- The transfer moves on. -/
theorem advance_cast (base : ℤ) {off c n : ℕ} (hn : n ≤ c) (hmax : off + n < 2 ^ 31) :
    (IOParameter.mk base off c).advance n = ⟨base + n, (off + n : ℕ), (c - n : ℕ)⟩ := by
  rw [IOParameter.advance]
  dsimp only
  rw [int32_of_bounds (by omega) (by omega)]
  congr 1
  omega

variable [DecidableEq ι] {d : Files ι} {F : ι → FlatFile} {i : ι} {base : ℤ} {off c n fuel : ℕ}
  {mem : ℤ → UInt8} {buffer : ℤ → Block}

/-! ### Writing -/

omit [DecidableEq ι] in
/-- The byte that a block filled from `off` on holds for the offset `o` of the file. -/
theorem filled_byte {data old new : ℕ → UInt8} {f : FlatFile} {o : ℕ}
    (hle : off % 512 + n ≤ 512)
    (hdata : ∀ k < 512, data k = if off % 512 ≤ k ∧ k < off % 512 + n
      then new (k - off % 512) else old k)
    (hold : o / 512 = off / 512 → old (o % 512) = f.bytes o) :
    (if o / 512 = off / 512 then data (o % 512) else f.bytes o) =
      (f.write off n new).bytes o := by
  simp only [FlatFile.write]
  by_cases hblock : o / 512 = off / 512
  · rw [if_pos hblock, hdata _ (by omega)]
    by_cases hin : off % 512 ≤ o % 512 ∧ o % 512 < off % 512 + n
    · rw [if_pos hin, if_pos (by omega)]
      congr 1
      omega
    · rw [if_neg hin, if_neg (by omega)]
      exact hold hblock
  · rw [if_neg hblock, if_neg (by omega)]

/-- **A block is filled** and the size follows. -/
theorem Holds.fill (h : Holds d F) (new : ℕ → UInt8) (hne : d.view.block i (off / 512) ≠ 0) (hn : 0 < n)
    (hle : off % 512 + n ≤ 512) (hmax : off + n ≤ maxFileSize) {data : Block}
    (hdata : ∀ k < 512, data k = if off % 512 ≤ k ∧ k < off % 512 + n
      then new (k - off % 512) else d.fs.blk (d.view.block i (off / 512)) k)
    {ino' : Inode} (haddr : ino'.iAddr = (d.inodes i).iAddr)
    (hmode : ino'.iMode = (d.inodes i).iMode) (hnumber : ino'.iNumber = (d.inodes i).iNumber)
    (hsize : ino'.iSize = max (d.inodes i).iSize (off + n)) :
    Holds (d.set { d.fs with blk := Function.update d.fs.blk (d.view.block i (off / 512)) data } i
      ino') (Function.update F i ((F i).write off n new)) := by
  have hlbn : off / 512 < 33030 := div_lt_of_lt (by omega)
  obtain ⟨L, hinv⟩ := h.inv
  set d₁ : Files ι :=
    ⟨{ d.fs with blk := Function.update d.fs.blk (d.view.block i (off / 512)) data }, d.inodes⟩
    with hd₁
  have hinv₁ : Inv d₁ L := (hinv.write hlbn hne data).1
  have hplain : ino'.isDevice = false := by
    rw [isDevice, hmode]
    exact hinv.plain i
  have hinv₂ : Inv (d₁.set d₁.fs i ino') L :=
    (hinv₁.other haddr hplain (hnumber ▸ hinv.number_lt i)).1
  have hview : (d₁.set d₁.fs i ino').view = d₁.view := by
    have heq : ino'.iAddr = d₁.view.addr i := haddr
    rw [Files.view_set, heq, Function.update_eq_self]
    rfl
  refine ⟨⟨L, hinv₂⟩, h.uError_eq, ?_, ?_, ?_⟩
  · intro j
    by_cases hj : j = i
    · subst hj
      rw [Files.inodes_set_self, Function.update_self, hsize, h.size_eq]
      simp only [FlatFile.write]
      rw [if_neg (by omega)]
      omega
    · rw [Files.inodes_set_of_ne _ _ _ _ hj, Function.update_of_ne hj]
      exact h.size_eq j
  · intro j
    by_cases hj : j = i
    · subst hj
      rw [Function.update_self]
      have hle := h.size_le j
      simp only [FlatFile.write]
      rw [if_neg (by omega)]
      omega
    · rw [Function.update_of_ne hj]
      exact h.size_le j
  · intro j o ho
    change (d₁.set d₁.fs i ino').view.byte j o = _
    rw [hview, hd₁, hinv.write_byte hlbn hne data j ho, h.byte_eq j o ho]
    by_cases hj : j = i
    · subst hj
      simp only [and_true, Function.update_self]
      refine filled_byte hle hdata fun hblock => ?_
      rw [← h.byte_eq j o ho, View.byte, hblock, if_neg hne]
      rfl
    · rw [Function.update_of_ne hj, if_neg fun hthis => hj hthis.2]

/-- **Bytes are written to a block.** -/
theorem Holds.writeBlk (h : Holds d F) (hne : d.view.block i (off / 512) ≠ 0) (hn : 0 < n)
    (hle : off % 512 + n ≤ 512) (hmax : off + n ≤ maxFileSize) (hnc : n ≤ c) :
    ∃ ino' fs', Inode.writeBlk buffer (d.transfer i base off c mem) (d.view.block i (off / 512))
        (off % 512 : ℕ) n =
        .ok ((d.set fs' i ino').transfer i (base + n) (off + n) (c - n) mem) ∧
      Holds (d.set fs' i ino') (Function.update F i ((F i).write off n fun k => mem (base + k))) := by
  obtain ⟨L, hinv⟩ := h.inv
  have hmode : (d.inodes i).iMode &&& (IFBLK &&& IFCHR) = 0 := (mode_of_plain (hinv.plain i)).1
  have hsmall : maxFileSize < 2 ^ 31 := by decide
  set old := (if (n : ℤ) = 512 then getBlk buffer (d.view.block i (off / 512))
    else bread d.fs (d.view.block i (off / 512))).bAddr with hold
  set data : Block := fun o => if (off % 512 : ℕ) ≤ (o : ℤ) ∧ (o : ℤ) < (off % 512 : ℕ) + (n : ℤ)
    then mem (base + (o - (off % 512 : ℕ))) else old o with hdata
  set ino' : Inode := { d.inodes i with
    iSize := max (d.inodes i).iSize (off + n)
    iFlag := (d.inodes i).iFlag ||| IUPD } with hino'
  refine ⟨ino', { d.fs with blk := Function.update d.fs.blk (d.view.block i (off / 512)) data },
    ?_, ?_⟩
  · have hsize : (if (d.inodes i).iSize < (off + n : ℕ) then ((off + n : ℕ) : ℤ)
        else (d.inodes i).iSize) = max (d.inodes i).iSize (off + n) := by
      split <;> omega
    have hblkno : (if (n : ℤ) = 512 then getBlk buffer (d.view.block i (off / 512))
        else bread d.fs (d.view.block i (off / 512))).bBlkno = d.view.block i (off / 512) := by
      split <;> rfl
    unfold Inode.writeBlk
    simp only [Files.transfer, iomoveIn]
    rw [if_neg (by omega)]
    simp only [Except.ok_bind, advance_cast base hnc (show off + n < 2 ^ 31 by omega), hmode, and_true, hsize, h.uError_eq, ne_eq, not_true_eq_false,
      if_false, bawrite, ite_self, bdwrite, hblkno, Except.pure_eq, Files.inodes_set_self,
      Files.fs_set]
    rfl
  · refine h.fill (fun k => mem (base + k)) hne hn hle hmax ?_ rfl rfl rfl rfl
    intro k hk
    rw [hdata]
    dsimp only
    by_cases hin : off % 512 ≤ k ∧ k < off % 512 + n
    · rw [if_pos hin, if_pos (by omega)]
      congr 1
      omega
    · rw [if_neg hin, if_neg (by omega), hold, if_neg (by omega)]
      rfl

/-- **One turn of the loop of `WriteI`** fails for want of a block or writes to one. -/
theorem writeLoop_step (h : Holds d F) (buffer : ℤ → Block) (i : ι) (base : ℤ) (mem : ℤ → UInt8)
    (fuel : ℕ) (hc : 0 < c) (hmax : off + c ≤ maxFileSize) :
    (∃ t, writeLoop buffer (fuel + 1) (d.transfer i base off c mem) = .ok t ∧
      t.fs.uError = .ENOSPC) ∨
    ∃ n ino' fs', 0 < n ∧ n ≤ c ∧
      writeLoop buffer (fuel + 1) (d.transfer i base off c mem) =
        writeLoop buffer fuel ((d.set fs' i ino').transfer i (base + n) (off + n) (c - n) mem) ∧
      Holds (d.set fs' i ino') (Function.update F i ((F i).write off n fun k => mem (base + k))) := by
  have hmode : (d.inodes i).iMode &&& IFMT ≠ IFBLK := by
    obtain ⟨L, hinv⟩ := h.inv
    exact (mode_of_plain (hinv.plain i)).2.1
  have hmin : min (512 - ((off % 512 : ℕ) : ℤ)) c = (min (512 - off % 512) c : ℕ) := by omega
  have hgo : ¬ (d.fs.uError ≠ .NOERROR ∨ (c : ℤ) = 0) := by
    rw [h.uError_eq]
    simp only [ne_eq, not_true_eq_false, false_or]
    omega
  obtain ⟨r, ino₁, fs₁, hbmap, hcase⟩ := h.bmap i (div_lt_of_lt (show off < maxFileSize by omega))
  have hloop : writeLoop buffer (fuel + 1) (d.transfer i base off c mem) =
      if r = 0 then .ok ((d.set fs₁ i ino₁).transfer i base off c mem)
      else (do
        let t ← writeBlk buffer ((d.set fs₁ i ino₁).transfer i base off c mem) r (off % 512 : ℕ)
          (min (512 - off % 512) c : ℕ)
        writeLoop buffer fuel t) := by
    rw [writeLoop]
    simp only [Files.transfer, tdiv_cast, tmod_cast, hmin, hbmap, Except.ok_bind,
      Files.inodes_set_self, Files.fs_set]
    rw [if_neg hgo, if_neg hmode]
    rfl
  rcases hcase with ⟨hzero, herr⟩ | ⟨hne, hblock, -, h₁⟩
  · rw [hloop, if_pos hzero]
    exact .inl ⟨_, rfl, herr⟩
  · obtain ⟨ino', fs', hwrite, h'⟩ := h₁.writeBlk (n := min (512 - off % 512) c) (c := c)
      (hblock.trans_ne hne) (by omega) (by omega) (by omega) (by omega)
    rw [hblock] at hwrite
    rw [Files.set_set] at hwrite h'
    refine .inr ⟨_, ino', fs', ?_, ?_, ?_, h'⟩
    · omega
    · omega
    · rw [hloop, if_neg hne, hwrite]
      rfl

/-- **The loop of `WriteI`**: the bytes are written, or a block was wanting. -/
theorem writeLoop_spec (h : Holds d F) (buffer : ℤ → Block) (i : ι) (base : ℤ) (mem : ℤ → UInt8)
    (hmax : off + c ≤ maxFileSize) (hfuel : c ≤ fuel) :
    ∃ t, writeLoop buffer fuel (d.transfer i base off c mem) = .ok t ∧
      (t.fs.uError = .ENOSPC ∨
        t = (d.set t.fs i t.ino).transfer i (base + c) (off + c) 0 mem ∧
        Holds (d.set t.fs i t.ino)
          (Function.update F i ((F i).write off c fun k => mem (base + k)))) := by
  induction fuel generalizing d F base off c with
  | zero =>
    have hc : c = 0 := by omega
    subst hc
    refine ⟨_, rfl, .inr ?_⟩
    simp only [Files.transfer, Files.set, Function.update_eq_self, FlatFile.write_zero,
      Nat.cast_zero, add_zero, true_and]
    exact h
  | succ fuel ih =>
    by_cases hc : c = 0
    · subst hc
      refine ⟨d.transfer i base off 0 mem, ?_, .inr ?_⟩
      · rw [writeLoop, if_pos (.inr rfl)]
        rfl
      · simp only [Files.transfer, Files.set, Function.update_eq_self, FlatFile.write_zero,
          Nat.cast_zero, add_zero, true_and]
        exact h
    · rcases writeLoop_step h buffer i base mem fuel (Nat.pos_of_ne_zero hc) hmax with
        ⟨t, hloop, herr⟩ | ⟨n, ino', fs', hn, hnc, hloop, h'⟩
      · exact ⟨t, hloop, .inl herr⟩
      · obtain ⟨t, hrest, hcase⟩ := ih h' (base + n)
          (show off + n + (c - n) ≤ maxFileSize by omega) (by omega)
        rw [← hloop] at hrest
        refine ⟨t, hrest, hcase.imp_right ?_⟩
        intro hok
        obtain ⟨ht, hholds⟩ := hok
        have hbase : base + n + (c - n : ℕ) = base + c := by omega
        have hoff : off + n + (c - n) = off + c := by omega
        have hdata : (fun k : ℕ => mem (base + n + k)) =
            fun k => (fun k : ℕ => mem (base + k)) (n + k) := by
          funext k
          dsimp only
          congr 1
          omega
        rw [Files.set_set, hbase, hoff] at ht
        rw [Files.set_set, Function.update_idem, Function.update_self, hdata, FlatFile.write_write,
          Nat.add_sub_cancel' hnc] at hholds
        exact ⟨ht, hholds⟩

/-- **`WriteI`** writes to the array of the file, or a block was wanting. -/
theorem writeI_spec (h : Holds d F) (buffer : ℤ → Block) (i : ι) (base : ℤ) (mem : ℤ → UInt8)
    (hmax : off + c ≤ maxFileSize) :
    ∃ t, writeI buffer (d.transfer i base off c mem) = .ok t ∧
      (t.fs.uError = .ENOSPC ∨
        t = (d.set t.fs i t.ino).transfer i (base + c) (off + c) 0 mem ∧
        Holds (d.set t.fs i t.ino)
          (Function.update F i ((F i).write off c fun k => mem (base + k)))) := by
  have hmode : (d.inodes i).iMode &&& IFMT ≠ IFCHR := by
    obtain ⟨L, hinv⟩ := h.inv
    exact (mode_of_plain (hinv.plain i)).2.2
  set touched : Inode := { d.inodes i with iFlag := (d.inodes i).iFlag ||| (IACC ||| IUPD) }
    with htouched
  have h₁ : Holds (d.set d.fs i touched) F := h.other rfl rfl rfl rfl
  obtain ⟨t, hloop, hcase⟩ := writeLoop_spec h₁ buffer i base mem hmax
    (show c ≤ c + 1 by omega)
  have hwrite : writeI buffer (d.transfer i base off c mem) =
      writeLoop buffer (c + 1) ((d.set d.fs i touched).transfer i base off c mem) := by
    unfold writeI
    simp only [Files.transfer, Files.inodes_set_self, Files.fs_set, Int.toNat_natCast, hmode,
      if_false]
    by_cases hc : (c : ℤ) = 0
    · refine (if_pos hc).trans ?_
      rw [writeLoop, if_pos (.inr hc)]
    · exact if_neg hc
  rw [Files.set_set] at hcase
  exact ⟨t, hwrite.trans hloop, hcase⟩

/-! ### Reading -/

/-- The memory after the `n` bytes at `off` of the file were brought to `base`. -/
def FlatFile.read (f : FlatFile) (off n : ℕ) (base : ℤ) (mem : ℤ → UInt8) : ℤ → UInt8 :=
  fun a => if base ≤ a ∧ a < base + n then f.bytes (off + (a - base).toNat) else mem a

omit [DecidableEq ι] in
theorem FlatFile.read_zero (f : FlatFile) : f.read off 0 base mem = mem := by
  funext a
  exact if_neg (by omega)

omit [DecidableEq ι] in
/-- A read may be made in two parts. -/
theorem FlatFile.read_read (f : FlatFile) (m : ℕ) :
    f.read (off + m) n (base + m) (f.read off m base mem) = f.read off (m + n) base mem := by
  funext a
  simp only [FlatFile.read]
  by_cases hn : base + m ≤ a ∧ a < base + m + n
  · rw [if_pos hn, if_pos (by omega)]
    congr 1
    omega
  · rw [if_neg hn]
    by_cases hm : base ≤ a ∧ a < base + m
    · rw [if_pos hm, if_pos (by omega)]
    · rw [if_neg hm, if_neg (by omega)]

/-- **The block `ReadI` reads next.** -/
theorem readBlkno_eq (h : Holds d F) (hoff : off < 2 ^ 31) (lbn nbytes : ℤ) :
    readBlkno (d.transfer i base off c mem) lbn nbytes =
      if (F i).size ≤ off then .ok (none, d.transfer i base off c mem)
      else (do
        let (bn, ino, fs) ← Inode.bmap d.fs (d.inodes i) lbn
        if bn = 0 then
          return (none, (d.set fs i ino).transfer i base off c mem)
        return (some (bn, min nbytes (((F i).size : ℤ) - off)),
          (d.set fs i ino).transfer i base off c mem)) := by
  have hmode : (d.inodes i).iMode &&& IFMT ≠ IFBLK := by
    obtain ⟨L, hinv⟩ := h.inv
    exact (mode_of_plain (hinv.plain i)).2.1
  have hsmall : maxFileSize < 2 ^ 31 := by decide
  have hle := h.size_le i
  have hremain : int32 ((d.inodes i).iSize - off) = ((F i).size : ℤ) - off := by
    rw [h.size_eq, int32_of_bounds (by omega) (by omega)]
  unfold readBlkno
  simp only [Files.transfer, hremain, Files.inodes_set_self, Files.fs_set]
  rw [if_pos hmode]
  by_cases hend : (F i).size ≤ off
  · rw [if_pos hend, if_pos (by omega)]
    rfl
  · rw [if_neg hend, if_neg (by omega)]

omit [DecidableEq ι] in
/-- **Bytes are read from a block.** -/
theorem Holds.iomoveOut (h : Holds d F) (hne : d.view.block i (off / 512) ≠ 0)
    (hle : off % 512 + n ≤ 512) (hend : off + n ≤ (F i).size) :
    Inode.iomoveOut (d.fs.blk (d.view.block i (off / 512))) (off % 512 : ℕ) mem base n =
      .ok ((F i).read off n base mem) := by
  rw [Inode.iomoveOut, if_neg (by omega)]
  congr 1
  funext a
  rw [FlatFile.read]
  by_cases hin : base ≤ a ∧ a < base + n
  · have hsize := h.size_le i
    have hbyte := h.byte_eq i (off + (a - base).toNat) (by omega)
    have hblock : (off + (a - base).toNat) / 512 = off / 512 := by omega
    have hrest : (off + (a - base).toNat) % 512 = (((off % 512 : ℕ) : ℤ) + (a - base)).toNat := by
      omega
    rw [View.byte, hblock, if_neg hne, hrest] at hbyte
    rw [if_pos hin, if_pos hin]
    exact hbyte
  · rw [if_neg hin, if_neg hin]

/-- A turn of the loop of `ReadI` that finds no block is the last one. -/
theorem readLoop_end {t t' : Transfer} (hgo : ¬(t.fs.uError ≠ .NOERROR ∨ t.io.mCount = 0))
    (hoff : t.io.mOffset = off) (hcount : t.io.mCount = c)
    (hblkno : readBlkno t (off / 512 : ℕ) (min (512 - ((off % 512 : ℕ) : ℤ)) c) = .ok (none, t')) :
    readLoop (fuel + 1) t = .ok t' := by
  rw [readLoop, if_neg hgo, hoff, hcount, tdiv_cast, tmod_cast]
  dsimp only
  rw [hblkno]
  rfl

/-- A turn of the loop of `ReadI` that finds a block. -/
theorem readLoop_next {t t' : Transfer} {bn nbytes : ℤ} {mem' : ℤ → UInt8}
    (hgo : ¬(t.fs.uError ≠ .NOERROR ∨ t.io.mCount = 0)) (hoff : t.io.mOffset = off)
    (hcount : t.io.mCount = c)
    (hblkno : readBlkno t (off / 512 : ℕ) (min (512 - ((off % 512 : ℕ) : ℤ)) c) =
      .ok (some (bn, nbytes), t'))
    (hmove : iomoveOut (t'.fs.blk bn) (off % 512 : ℕ) t'.mem t'.io.mBase nbytes = .ok mem') :
    readLoop (fuel + 1) t = readLoop fuel { t' with
      ino := { t'.ino with iLastr := (off / 512 : ℕ) }
      io := t'.io.advance nbytes
      mem := mem' } := by
  rw [readLoop, if_neg hgo, hoff, hcount, tdiv_cast, tmod_cast]
  dsimp only
  rw [hblkno]
  simp only [breada, ite_self, bread, Except.ok_bind, hmove]

/-- **One turn of the loop of `ReadI`** ends at the end of the file, fails for want of a
block or reads from one. -/
theorem readLoop_step (h : Holds d F) (i : ι) (base : ℤ) (mem : ℤ → UInt8) (fuel : ℕ)
    (hc : 0 < c) (hoff : off < 2 ^ 31) :
    ((F i).size ≤ off ∧ readLoop (fuel + 1) (d.transfer i base off c mem) =
      .ok (d.transfer i base off c mem)) ∨
    (∃ t, readLoop (fuel + 1) (d.transfer i base off c mem) = .ok t ∧ t.fs.uError = .ENOSPC) ∨
    ∃ n ino' fs', 0 < n ∧ n ≤ c ∧ off + n ≤ (F i).size ∧
      readLoop (fuel + 1) (d.transfer i base off c mem) =
        readLoop fuel ((d.set fs' i ino').transfer i (base + n) (off + n) (c - n)
          ((F i).read off n base mem)) ∧
      Holds (d.set fs' i ino') F := by
  have hgo : ¬ (d.fs.uError ≠ .NOERROR ∨ (c : ℤ) = 0) := by
    rw [h.uError_eq]
    simp only [ne_eq, not_true_eq_false, false_or]
    omega
  have hblkno := @readBlkno_eq _ _ d F i base off c mem h hoff (off / 512 : ℕ)
    (min (512 - ((off % 512 : ℕ) : ℤ)) c)
  by_cases hend : (F i).size ≤ off
  · rw [if_pos hend] at hblkno
    exact .inl ⟨hend, readLoop_end hgo rfl rfl hblkno⟩
  · rw [if_neg hend] at hblkno
    have hle := h.size_le i
    have hsmall : maxFileSize < 2 ^ 31 := by decide
    obtain ⟨r, ino₁, fs₁, hbmap, hcase⟩ :=
      h.bmap i (div_lt_of_lt (show off < maxFileSize by omega))
    rw [hbmap, Except.ok_bind] at hblkno
    dsimp only at hblkno
    rcases hcase with ⟨hzero, herr⟩ | ⟨hne, hblock, -, h₁⟩
    · rw [if_pos hzero] at hblkno
      exact .inr (.inl ⟨_, readLoop_end hgo rfl rfl hblkno, herr⟩)
    · rw [if_neg hne] at hblkno
      set n := min (min (512 - off % 512) c) ((F i).size - off) with hn
      have hmin : min (min (512 - ((off % 512 : ℕ) : ℤ)) c) (((F i).size : ℤ) - off) = n := by omega
      have hmove : iomoveOut (fs₁.blk r) (off % 512 : ℕ) mem base n =
          .ok ((F i).read off n base mem) := by
        rw [← hblock]
        exact h₁.iomoveOut (hblock.trans_ne hne) (by omega) (by omega)
      set ino₂ : Inode := { ino₁ with iLastr := (off / 512 : ℕ) } with hino₂
      have h₂ : Holds (d.set fs₁ i ino₂) F := by
        have h₂ : Holds ((d.set fs₁ i ino₁).set fs₁ i ino₂) F := h₁.other (by rw [Files.inodes_set_self])
          (by rw [Files.inodes_set_self]) (by rw [Files.inodes_set_self])
          (by rw [Files.inodes_set_self])
        rwa [Files.set_set] at h₂
      refine .inr (.inr ⟨n, ino₂, fs₁, ?_, ?_, ?_, ?_, h₂⟩)
      · omega
      · omega
      · omega
      · rw [hmin] at hblkno
        rw [readLoop_next hgo rfl rfl hblkno hmove]
        simp only [Files.transfer, Files.fs_set, Files.inodes_set_self,
          advance_cast base (show n ≤ c by omega) (show off + n < 2 ^ 31 by omega)]
        rfl

/-- Reading no byte. -/
theorem Holds.read_nothing (h : Holds d F) : d.transfer i base off c mem =
    (d.set d.fs i (d.inodes i)).transfer i (base + (0 : ℕ)) (off + 0) (c - 0)
      ((F i).read off 0 base mem) ∧ Holds (d.set d.fs i (d.inodes i)) F := by
  simp only [Files.transfer, Files.set, Function.update_eq_self, FlatFile.read_zero,
    Nat.cast_zero, add_zero, Nat.sub_zero, true_and]
  exact h

/-- **The loop of `ReadI`**: the bytes up to the end of the file are read, or a block was
wanting. -/
theorem readLoop_spec (h : Holds d F) (i : ι) (base : ℤ) (mem : ℤ → UInt8) (hoff : off < 2 ^ 31)
    (hfuel : c ≤ fuel)
    (hn : n = min c ((F i).size - off)) :
    ∃ t, readLoop fuel (d.transfer i base off c mem) = .ok t ∧
      (t.fs.uError = .ENOSPC ∨
        t = (d.set t.fs i t.ino).transfer i (base + n) (off + n) (c - n)
          ((F i).read off n base mem) ∧
        Holds (d.set t.fs i t.ino) F) := by
  induction fuel generalizing d base off c n mem with
  | zero =>
    have hzero : n = 0 := by omega
    subst hzero
    exact ⟨d.transfer i base off c mem, rfl, .inr (h.read_nothing)⟩
  | succ fuel ih =>
    by_cases hc : c = 0
    · have hzero : n = 0 := by omega
      subst hzero
      refine ⟨d.transfer i base off c mem, ?_, .inr (h.read_nothing)⟩
      rw [readLoop, if_pos (.inr (by rw [hc]; rfl))]
      rfl
    · rcases readLoop_step h i base mem fuel (Nat.pos_of_ne_zero hc) hoff with
        ⟨hend, hloop⟩ | ⟨t, hloop, herr⟩ | ⟨m, ino', fs', hm, hmc, hend, hloop, h'⟩
      · have hzero : n = 0 := by omega
        subst hzero
        exact ⟨_, hloop, .inr (h.read_nothing)⟩
      · exact ⟨t, hloop, .inl herr⟩
      · have hsmall : maxFileSize < 2 ^ 31 := by decide
        have hle := h.size_le i
        obtain ⟨t, hrest, hcase⟩ := ih h' (base + m) ((F i).read off m base mem)
          (show off + m < 2 ^ 31 by omega) (show c - m ≤ fuel by omega)
          (show n - m = min (c - m) ((F i).size - (off + m)) by omega)
        rw [← hloop] at hrest
        refine ⟨t, hrest, hcase.imp_right ?_⟩
        intro hok
        obtain ⟨ht, hholds⟩ := hok
        have hbase : base + m + (n - m : ℕ) = base + n := by omega
        have hoff : off + m + (n - m) = off + n := by omega
        have hcount : c - m - (n - m) = c - n := by omega
        have hread : m + (n - m) = n := by omega
        rw [Files.set_set] at ht hholds
        rw [hbase, hoff, hcount, FlatFile.read_read, hread] at ht
        exact ⟨ht, hholds⟩

/-- **`ReadI`** brings the bytes up to the end of the file to memory, or a block was
wanting. -/
theorem readI_spec (h : Holds d F) (i : ι) (base : ℤ) (mem : ℤ → UInt8) (c : ℕ)
    (hoff : off < 2 ^ 31) (hn : n = min c ((F i).size - off)) :
    ∃ t, readI (d.transfer i base off c mem) = .ok t ∧
      (t.fs.uError = .ENOSPC ∨
        t = (d.set t.fs i t.ino).transfer i (base + n) (off + n) (c - n)
          ((F i).read off n base mem) ∧
        Holds (d.set t.fs i t.ino) F) := by
  by_cases hc : c = 0
  · have hzero : n = 0 := by omega
    subst hzero
    refine ⟨d.transfer i base off c mem, ?_, .inr h.read_nothing⟩
    unfold readI
    rw [if_pos (by rw [hc]; rfl)]
    rfl
  · have hmode : (d.inodes i).iMode &&& IFMT ≠ IFCHR := by
      obtain ⟨L, hinv⟩ := h.inv
      exact (mode_of_plain (hinv.plain i)).2.2
    set touched : Inode := { d.inodes i with iFlag := (d.inodes i).iFlag ||| IACC } with htouched
    have h₁ : Holds (d.set d.fs i touched) F := h.other rfl rfl rfl rfl
    obtain ⟨t, hloop, hcase⟩ := readLoop_spec h₁ i base mem hoff
      (show c ≤ c + 1 by omega) hn
    have hread : readI (d.transfer i base off c mem) =
        readLoop (c + 1) ((d.set d.fs i touched).transfer i base off c mem) := by
      have hc' : (c : ℤ) ≠ 0 := by omega
      unfold readI
      simp only [Files.transfer, Files.inodes_set_self, Files.fs_set, Int.toNat_natCast, hmode, hc',
        if_false]
      rfl
    rw [Files.set_set] at hcase
    exact ⟨t, hread.trans hloop, hcase⟩

/-! ### Runs -/

/-- The calls on the files of a device. -/
inductive Call (ι : Type*)
  | writeI (i : ι) (base : ℤ) (off c : ℕ) (mem : ℤ → UInt8)
  | readI (i : ι) (base : ℤ) (off c : ℕ) (mem : ℤ → UInt8)

/-- One call that returns, and in which no `Alloc` failed, on the files and on the arrays. -/
inductive CallStep : Files ι × (ι → FlatFile) → Call ι → Files ι × (ι → FlatFile) → Prop
  | writeI {d : Files ι} {F : ι → FlatFile} {i : ι} {base : ℤ} {off c : ℕ} {mem : ℤ → UInt8}
      {buffer : ℤ → Block} {t : Transfer} (hmax : off + c ≤ maxFileSize)
      (h : Inode.writeI buffer (d.transfer i base off c mem) = .ok t)
      (hspace : t.fs.uError ≠ .ENOSPC) :
      CallStep (d, F) (.writeI i base off c mem)
        (d.set t.fs i t.ino, Function.update F i ((F i).write off c fun k => mem (base + k)))
  | readI {d : Files ι} {F : ι → FlatFile} {i : ι} {base : ℤ} {off c : ℕ} {mem : ℤ → UInt8}
      {t : Transfer} (hoff : off < 2 ^ 31)
      (h : Inode.readI (d.transfer i base off c mem) = .ok t)
      (hspace : t.fs.uError ≠ .ENOSPC) :
      CallStep (d, F) (.readI i base off c mem) (d.set t.fs i t.ino, F)

/-- **One call.** -/
theorem Holds.call (h : Holds d F) {e : Call ι} {d' : Files ι} {F' : ι → FlatFile}
    (hstep : CallStep (d, F) e (d', F')) : Holds d' F' := by
  cases hstep with
  | writeI hmax heq hspace =>
    obtain ⟨t, hwrite, hcase⟩ := writeI_spec h _ _ _ _ hmax
    cases hwrite.symm.trans heq
    exact (hcase.resolve_left hspace).2
  | readI hoff heq hspace =>
    obtain ⟨t, hread, hcase⟩ := readI_spec h _ _ _ _ hoff rfl
    cases hread.symm.trans heq
    exact (hcase.resolve_left hspace).2

omit [DecidableEq ι] in
/-- Files that were never written. -/
theorem Inv.holds_new {L : List ℤ} (h : Inv d L) (herr : d.fs.uError = .NOERROR)
    (hsize : ∀ i, (d.inodes i).iSize = 0) (haddr : ∀ i, ∀ k < 10, (d.inodes i).iAddr k = 0) :
    Holds d fun _ => FlatFile.new := by
  refine ⟨⟨L, h⟩, herr, hsize, fun _ => Nat.zero_le _, ?_⟩
  intro i o ho
  have hk : (lbnPath (o / 512)).1 < 10 := (isPath_lbnPath (div_lt_of_lt ho)).1.root_lt
  have hroot : d.view.addr i (lbnPath (o / 512)).1 = 0 := haddr i _ hk
  have hblock : d.view.block i (o / 512) = 0 := by
    rw [View.block, View.at, hroot]
    exact walk_zero _
  exact if_pos hblock

/-- **Read after write over a whole run.**  Files that start without a block are written
and read in any order.  The size of each is the greatest end of a write; a read that
finds its blocks transfers what lies below the size, each byte the last one written there
and zero where none was; a write that finds its blocks transfers everything. -/
theorem fileData_run {d₀ : Files ι} {L₀ : List ℤ} (h₀ : Inv d₀ L₀)
    (herr : d₀.fs.uError = .NOERROR) (hsize : ∀ i, (d₀.inodes i).iSize = 0)
    (haddr : ∀ i, ∀ k < 10, (d₀.inodes i).iAddr k = 0)
    (hrun : Runs CallStep (fun _ _ => True) (d₀, fun _ => FlatFile.new) (d, F)) :
    (∀ i, (d.inodes i).iSize = (F i).size) ∧
    (∀ i base off c mem, off < 2 ^ 31 →
      ∃ t, readI (d.transfer i base off c mem) = .ok t ∧
        (t.fs.uError ≠ .ENOSPC → ∃ n, n = min c ((F i).size - off) ∧
          t.io = ⟨base + n, (off + n : ℕ), (c - n : ℕ)⟩ ∧ t.mem = (F i).read off n base mem)) ∧
    (∀ i base off c mem buffer, off + c ≤ maxFileSize →
      ∃ t, writeI buffer (d.transfer i base off c mem) = .ok t ∧
        (t.fs.uError ≠ .ENOSPC → t.io = ⟨base + c, (off + c : ℕ), 0⟩ ∧ t.mem = mem)) := by
  have h : Holds d F := by
    refine hrun.invariant (I := fun s => Holds s.1 s.2) ?_ (h₀.holds_new herr hsize haddr)
    intro s e s' hs _ hstep
    exact hs.call hstep
  refine ⟨h.size_eq, ?_, ?_⟩
  · intro i base off c mem hoff
    obtain ⟨t, hread, hcase⟩ := readI_spec h i base mem c hoff rfl
    refine ⟨t, hread, fun hspace => ⟨_, rfl, ?_⟩⟩
    have ht := (hcase.resolve_left hspace).1
    rw [ht]
    exact ⟨rfl, rfl⟩
  · intro i base off c mem buffer hmax
    obtain ⟨t, hwrite, hcase⟩ := writeI_spec h buffer i base mem hmax
    refine ⟨t, hwrite, fun hspace => ?_⟩
    have ht := (hcase.resolve_left hspace).1
    rw [ht]
    exact ⟨rfl, rfl⟩

/-- A byte is written to the file and read again. -/
theorem fileData_run_oneFile : ∃ d₁ : Files Unit, (d₁.inodes ()).iSize = 1 ∧
    ∃ t, readI (d₁.transfer () 0 0 5 fun _ => 0) = .ok t ∧ t.mem 0 = 7 ∧ t.io.mCount = 4 := by
  obtain ⟨t, hwrite, herr, t', hread', herr'⟩ :
      ∃ t, writeI (fun _ _ => 0) (oneFile.transfer () 0 0 1 fun _ => 7) = .ok t ∧
        t.fs.uError = .NOERROR ∧
        ∃ t', readI ((oneFile.set t.fs () t.ino).transfer () 0 0 5 fun _ => 0) = .ok t' ∧
          t'.fs.uError = .NOERROR := ⟨_, rfl, rfl, _, rfl, rfl⟩
  have hrun : Runs CallStep (fun _ _ => True) (oneFile, fun _ => FlatFile.new) _ :=
    Runs.single trivial (CallStep.writeI (by decide) hwrite (by rw [herr]; decide))
  obtain ⟨hsize, hread, -⟩ := fileData_run inv_oneFile rfl (fun _ => rfl) (fun _ _ _ => rfl) hrun
  obtain ⟨t₂, heq, hok⟩ := hread () 0 0 5 (fun _ => 0) (by decide)
  cases heq.symm.trans hread'
  obtain ⟨n, rfl, hio, hmem⟩ := hok (by rw [herr']; decide)
  refine ⟨_, hsize (), t', hread', ?_, ?_⟩
  · rw [hmem]
    rfl
  · rw [hio]
    rfl

end Inode
end UnixV6pp
