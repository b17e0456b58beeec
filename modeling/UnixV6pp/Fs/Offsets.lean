import UnixV6pp.Fs.Transfer
import UnixV6pp.Fs.CreatCall

/-!
# The read and write position of a file

`Seek` computes the position as a 32-bit number and stores whatever comes out; `Rdwr` hands it to
`ReadI` or `WriteI` and moves it on by what was transferred.

The loops of `ReadI` and `WriteI` are taken apart into turns, so that it can be said of every turn
what block it asks `Bmap` for.

* `FileManager.seek`, `FileManager.rdwr` — the calls on an open file.
* `Inode.bmapIndices` — the elements of `i_addr` and of index blocks that `Bmap` looks at.
* `offsets_run` — **the positions in every run** without a seek before the start of the file.
-/

namespace UnixV6pp

open Words FileSystem BufferManager

namespace Inode

variable {s s' : FsState} {ino ino' : Inode} {lbn : ℤ} {buffer : ℤ → Block} {t t' t'' : Transfer}

/-! ### What `Bmap` looks at -/

/-- The arrays that `Bmap` looks into for a logical block that is not too large, with their
lengths, and the indices it uses: those that lead to the block, and that of the next block. -/
def bmapIndices (lbn : ℤ) : List (ℤ × ℤ) :=
  if lbn < 6 then
    (10, lbn) :: if lbn ≤ 4 then [(10, lbn + 1)] else []
  else
    let index := if lbn < largeFileBlock then (lbn - smallFileBlock) / 128 + 6
      else (lbn - largeFileBlock) / (128 * 128) + 8
    let last := if lbn < largeFileBlock then (lbn - smallFileBlock) % 128
      else (lbn - largeFileBlock) % 128
    (10, index) :: (if index ≥ 8 then [(128, (lbn - largeFileBlock) / 128 % 128)] else []) ++
      (128, last) :: if last + 1 < 128 then [(128, last + 1)] else []

/-- A logical block that `Bmap` may be asked for: all indices are inside, or it is refused. -/
def LbnOk (lbn : ℤ) : Prop :=
  (0 ≤ lbn ∧ lbn < hugeFileBlock ∧ ∀ p ∈ bmapIndices lbn, 0 ≤ p.2 ∧ p.2 < p.1) ∨
    ∀ s ino, bmap s ino lbn = .ok (0, ino, { s with uError := .EFBIG })

theorem lbnOk (h : 0 ≤ lbn) : LbnOk lbn := by
  by_cases hlt : lbn < hugeFileBlock
  · refine .inl ⟨h, hlt, ?_⟩
    unfold hugeFileBlock at hlt
    unfold bmapIndices largeFileBlock smallFileBlock
    dsimp only
    split_ifs <;> simp <;> omega
  · refine .inr fun s ino => ?_
    unfold bmap
    rw [if_pos (not_lt.mp hlt)]
    rfl

/-- A negative logical block takes `Bmap` out of `i_addr`. -/
theorem bmap_negative (h : lbn < 0) : bmap s ino lbn = .error .outside := by
  have hhuge : ¬ lbn ≥ hugeFileBlock := by
    unfold hugeFileBlock
    omega
  unfold bmap bmapDirect readAt
  rw [if_neg hhuge, if_pos (by omega), if_neg (by omega)]
  rfl

/-- The part of `Bmap` behind the index block of the first level leaves the inode alone. -/
theorem tables_inode {table : Option Buf} {index phyBlkno : ℤ} (h : (match table with
    | none => pure (0, ino, s)
    | some table => do
      let (phyBlkno, s) ← lastTable s table index
      return (phyBlkno, ino, s) : Except Stop (ℤ × Inode × FsState)) = .ok (phyBlkno, ino', s')) :
    ino' = ino := by
  cases table with
  | none =>
    cases h
    rfl
  | some table =>
    obtain ⟨⟨phyBlkno, s₁⟩, -, h⟩ := Except.bind_eq_ok.mp h
    cases h
    rfl

/-- `Bmap` changes the numbers and the flags of the inode only. -/
theorem bmap_sameFile {r : ℤ} (h : bmap s ino lbn = .ok (r, ino', s')) : SameFile ino ino' := by
  unfold bmap at h
  split at h
  · cases h
    exact ⟨_, rfl⟩
  · split at h
    · unfold bmapDirect at h
      obtain ⟨phyBlkno, -, h⟩ := Except.bind_eq_ok.mp h
      dsimp only at h
      split at h
      · obtain ⟨⟨buf, s₁⟩, -, h⟩ := Except.bind_eq_ok.mp h
        cases buf <;> cases h <;> exact ⟨_, rfl⟩
      · cases h
        exact ⟨_, rfl⟩
    · obtain ⟨⟨first, ino₁, s₁⟩, hfirst, h⟩ := Except.bind_eq_ok.mp h
      have hsame : SameFile ino ino₁ := by
        unfold firstTable at hfirst
        obtain ⟨phyBlkno, -, hfirst⟩ := Except.bind_eq_ok.mp hfirst
        split at hfirst
        · obtain ⟨⟨buf, s₂⟩, -, hfirst⟩ := Except.bind_eq_ok.mp hfirst
          cases buf <;> cases hfirst <;> exact ⟨_, rfl⟩
        · cases hfirst
          exact ⟨_, rfl⟩
      cases first with
      | none =>
        cases h
        exact hsame
      | some first =>
        dsimp only at h
        split at h <;> split at h
        all_goals
          obtain ⟨⟨table, s₂⟩, -, h⟩ := Except.bind_eq_ok.mp h
          rw [tables_inode h]
          exact hsame

/-- A logical block that is mapped is not too large. -/
theorem lt_of_bmap {r : ℤ} (h : bmap s ino lbn = .ok (r, ino', s')) (hr : r ≠ 0) :
    lbn < hugeFileBlock := by
  unfold bmap at h
  split at h
  · cases h
    exact absurd rfl hr
  · next hlt => exact not_le.mp hlt

/-! ### The turns of the loops -/

/-- One turn of the loop of `ReadI`, or `none` where it returns. -/
def readTurn (t : Transfer) : Except Stop (Option Transfer) := do
  if t.fs.uError ≠ .NOERROR ∨ t.io.mCount = 0 then
    return none
  let lbn := t.io.mOffset.tdiv 512
  let offset := t.io.mOffset.tmod 512
  match ← readBlkno t lbn (min (512 - offset) t.io.mCount) with
  | (none, _) => return none
  | (some (bn, nbytes), t) =>
    let buf := if t.ino.iLastr + 1 = lbn then breada t.fs bn t.fs.rablock else bread t.fs bn
    let mem ← iomoveOut buf.bAddr offset t.mem t.io.mBase nbytes
    return some { t with
      ino := { t.ino with iLastr := lbn }
      io := t.io.advance nbytes
      mem := mem }

/-- One turn of the loop of `WriteI`, or `none` where it returns. -/
def writeTurn (buffer : ℤ → Block) (t : Transfer) : Except Stop (Option Transfer) := do
  if t.fs.uError ≠ .NOERROR ∨ t.io.mCount = 0 then
    return none
  let lbn := t.io.mOffset.tdiv 512
  let offset := t.io.mOffset.tmod 512
  let nbytes := min (512 - offset) t.io.mCount
  if t.ino.iMode &&& IFMT = IFBLK then
    throw .unset
  let (bn, ino, fs) ← bmap t.fs t.ino lbn
  if bn = 0 then
    return none
  let t ← writeBlk buffer { t with ino := ino, fs := fs } bn offset nbytes
  return some t

/-- A later turn of a loop. -/
def Later (turn : Transfer → Except Stop (Option Transfer)) : Transfer → Transfer → Prop :=
  Relation.ReflTransGen fun t t' => turn t = .ok (some t')

/-- What a transfer to or from a regular file keeps: position and size are not negative. -/
structure Within (t : Transfer) : Prop where
  offset_nonneg : 0 ≤ t.io.mOffset
  offset_lt : t.io.mOffset < 2 ^ 31
  size_nonneg : 0 ≤ t.ino.iSize
  size_lt : t.ino.iSize < 2 ^ 31
  regular : t.ino.iMode &&& IFMT = 0

/-- The position and the count together say where the transfer ends. -/
def Transfer.last (t : Transfer) : ℤ := t.io.mOffset + t.io.mCount

theorem sameFile_fields (h : SameFile ino ino') : ino'.iSize = ino.iSize ∧ ino'.iMode = ino.iMode := by
  obtain ⟨iFlag', h⟩ := h
  rw [h]
  exact ⟨rfl, rfl⟩

/-- `ReadI` asks for a block only while the position is before the end of the file. -/
theorem readBlkno_cases {n : ℤ} {r : Option (ℤ × ℤ)} (h : readBlkno t lbn n = .ok (r, t'))
    (hreg : t.ino.iMode &&& IFMT = 0) :
    t'.io = t.io ∧ t'.ino.iSize = t.ino.iSize ∧ t'.ino.iMode = t.ino.iMode ∧
      ∀ bn nbytes, r = some (bn, nbytes) → nbytes ≤ n ∧ nbytes ≤ int32 (t.ino.iSize - t.io.mOffset) := by
  have hne : t.ino.iMode &&& IFMT ≠ IFBLK := by
    rw [hreg]
    decide
  unfold readBlkno at h
  rw [if_pos hne] at h
  dsimp only at h
  split at h
  · cases h
    exact ⟨rfl, rfl, rfl, fun _ _ h => by cases h⟩
  · obtain ⟨⟨bn, ino, fs⟩, hbmap, h⟩ := Except.bind_eq_ok.mp h
    obtain ⟨hsize, hmode⟩ := sameFile_fields (bmap_sameFile hbmap)
    dsimp only at h
    split at h
    · cases h
      exact ⟨rfl, hsize, hmode, fun _ _ h => by cases h⟩
    · cases h
      refine ⟨rfl, hsize, hmode, ?_⟩
      rintro bn nbytes h
      cases h
      exact ⟨min_le_left _ _, min_le_right _ _⟩

theorem nonneg_of_iomoveOut {data : Block} {offset : ℤ} {mem mem' : ℤ → UInt8} {base nbytes : ℤ}
    (h : iomoveOut data offset mem base nbytes = .ok mem') : 0 ≤ nbytes := by
  unfold iomoveOut at h
  split at h
  · cases h
  · omega

/-- **A turn of `ReadI`.** -/
theorem readTurn_within (h : Within t) (hturn : readTurn t = .ok (some t')) :
    Within t' ∧ t'.last = t.last := by
  unfold readTurn at hturn
  split at hturn
  · cases hturn
  · obtain ⟨⟨r, t₁⟩, hblkno, hturn⟩ := Except.bind_eq_ok.mp hturn
    obtain ⟨hio, hsize, hmode, hn⟩ := readBlkno_cases hblkno h.regular
    cases r with
    | none => cases hturn
    | some r =>
      obtain ⟨bn, nbytes⟩ := r
      obtain ⟨mem, hmove, hturn⟩ := Except.bind_eq_ok.mp hturn
      have hnonneg := nonneg_of_iomoveOut hmove
      obtain ⟨-, hremain⟩ := hn bn nbytes rfl
      have hoff := h.offset_nonneg
      have hlt := h.size_lt
      rw [int32_of_bounds (by have := h.size_nonneg; have := h.offset_lt; omega) (by omega)] at hremain
      have hmoved : int32 (t₁.io.mOffset + nbytes) = t.io.mOffset + nbytes := by
        rw [hio, int32_of_bounds (by omega) (by omega)]
      cases hturn
      refine ⟨⟨?_, ?_, hsize ▸ h.size_nonneg, hsize ▸ hlt, ?_⟩, ?_⟩
      · change 0 ≤ int32 (t₁.io.mOffset + nbytes)
        omega
      · change int32 (t₁.io.mOffset + nbytes) < 2 ^ 31
        omega
      · change t₁.ino.iMode &&& IFMT = 0
        rw [hmode]
        exact h.regular
      · change int32 (t₁.io.mOffset + nbytes) + (t₁.io.mCount - nbytes) = _
        rw [hmoved, hio]
        unfold Transfer.last
        omega

/-- **A turn of `WriteI`.** -/
theorem writeTurn_within (h : Within t) (hturn : writeTurn buffer t = .ok (some t')) :
    Within t' ∧ t'.last = t.last := by
  have hoff := h.offset_nonneg
  unfold writeTurn at hturn
  split at hturn
  · cases hturn
  · dsimp only at hturn
    split at hturn
    · cases hturn
    · obtain ⟨⟨bn, ino, fs⟩, hbmap, hturn⟩ := Except.bind_eq_ok.mp hturn
      obtain ⟨hsize, hmode⟩ := sameFile_fields (bmap_sameFile hbmap)
      dsimp only at hturn
      split at hturn
      · cases hturn
      · next hbn =>
        obtain ⟨t₁, hwrite, hturn⟩ := Except.bind_eq_ok.mp hturn
        cases hturn
        -- the block is one of the largest file, so the position does not overflow
        have hlbn := lt_of_bmap hbmap hbn
        unfold hugeFileBlock at hlbn
        rw [Int.tdiv_eq_ediv_of_nonneg hoff] at hlbn
        have hmod : t.io.mOffset.tmod 512 = t.io.mOffset % 512 := Int.tmod_eq_emod_of_nonneg hoff
        unfold writeBlk at hwrite
        obtain ⟨data, hmove, hwrite⟩ := Except.bind_eq_ok.mp hwrite
        have hnonneg : 0 ≤ min (512 - t.io.mOffset.tmod 512) t.io.mCount := by
          unfold iomoveIn at hmove
          split at hmove
          · cases hmove
          · omega
        have hmoved : int32 (t.io.mOffset + min (512 - t.io.mOffset.tmod 512) t.io.mCount) =
            t.io.mOffset + min (512 - t.io.mOffset.tmod 512) t.io.mCount := by
          rw [int32_of_bounds (by omega) (by omega)]
        cases hwrite
        refine ⟨⟨?_, ?_, ?_, ?_, ?_⟩, ?_⟩
        · change 0 ≤ int32 (t.io.mOffset + min (512 - t.io.mOffset.tmod 512) t.io.mCount)
          omega
        · change int32 (t.io.mOffset + min (512 - t.io.mOffset.tmod 512) t.io.mCount) < 2 ^ 31
          omega
        · change 0 ≤ (if _ then int32 (t.io.mOffset + _) else ino.iSize)
          split
          · omega
          · exact hsize ▸ h.size_nonneg
        · change (if _ then int32 (t.io.mOffset + _) else ino.iSize) < 2 ^ 31
          split
          · omega
          · exact hsize ▸ h.size_lt
        · change ino.iMode &&& IFMT = 0
          rw [hmode]
          exact h.regular
        · change int32 (t.io.mOffset + _) + (t.io.mCount - _) = _
          rw [hmoved]
          unfold Transfer.last
          omega

/-- What is the same where a loop returns as in its last turn. -/
def SameEnd (t t' : Transfer) : Prop :=
  t'.io = t.io ∧ t'.ino.iSize = t.ino.iSize ∧ t'.ino.iMode = t.ino.iMode

theorem SameEnd.within (h : SameEnd t t') (hw : Within t) : Within t' ∧ t'.last = t.last := by
  obtain ⟨hio, hsize, hmode⟩ := h
  refine ⟨⟨?_, ?_, ?_, ?_, ?_⟩, ?_⟩
  · exact hio ▸ hw.offset_nonneg
  · exact hio ▸ hw.offset_lt
  · exact hsize ▸ hw.size_nonneg
  · exact hsize ▸ hw.size_lt
  · exact hmode ▸ hw.regular
  · unfold Transfer.last
    rw [hio]

/-- The loop of `ReadI` goes turn by turn. -/
theorem readLoop_turns {fuel : ℕ} (h : Within t) (hloop : readLoop fuel t = .ok t'') :
    ∃ t', Later readTurn t t' ∧ SameEnd t' t'' := by
  induction fuel generalizing t with
  | zero =>
    cases hloop
    exact ⟨_, .refl, rfl, rfl, rfl⟩
  | succ fuel ih =>
    unfold readLoop at hloop
    split at hloop
    · cases hloop
      exact ⟨_, .refl, rfl, rfl, rfl⟩
    · next hgo =>
      obtain ⟨⟨r, t₁⟩, hblkno, hloop⟩ := Except.bind_eq_ok.mp hloop
      cases r with
      | none =>
        cases hloop
        obtain ⟨hio, hsize, hmode, -⟩ := readBlkno_cases hblkno h.regular
        exact ⟨_, .refl, hio, hsize, hmode⟩
      | some r =>
        obtain ⟨bn, nbytes⟩ := r
        obtain ⟨mem, hmove, hloop⟩ := Except.bind_eq_ok.mp hloop
        have hturn : readTurn t = .ok (some { t₁ with
            ino := { t₁.ino with iLastr := t.io.mOffset.tdiv 512 }
            io := t₁.io.advance nbytes
            mem := mem }) := by
          unfold readTurn
          rw [if_neg hgo]
          dsimp only
          rw [hblkno, Except.ok_bind]
          dsimp only
          rw [hmove, Except.ok_bind]
          rfl
        obtain ⟨t', hlater, hend⟩ := ih (readTurn_within h hturn).1 hloop
        exact ⟨t', .head hturn hlater, hend⟩

/-- The loop of `WriteI` goes turn by turn. -/
theorem writeLoop_turns {fuel : ℕ} (h : Within t) (hloop : writeLoop buffer fuel t = .ok t'') :
    ∃ t', Later (writeTurn buffer) t t' ∧ SameEnd t' t'' := by
  induction fuel generalizing t with
  | zero =>
    cases hloop
    exact ⟨_, .refl, rfl, rfl, rfl⟩
  | succ fuel ih =>
    unfold writeLoop at hloop
    split at hloop
    · cases hloop
      exact ⟨_, .refl, rfl, rfl, rfl⟩
    · next hgo =>
      dsimp only at hloop
      split at hloop
      · cases hloop
      · next hdev =>
        obtain ⟨⟨bn, ino, fs⟩, hbmap, hloop⟩ := Except.bind_eq_ok.mp hloop
        obtain ⟨hsize, hmode⟩ := sameFile_fields (bmap_sameFile hbmap)
        dsimp only at hloop
        split at hloop
        · cases hloop
          exact ⟨_, .refl, rfl, hsize, hmode⟩
        · next hbn =>
          obtain ⟨t₁, hwrite, hloop⟩ := Except.bind_eq_ok.mp hloop
          have hturn : writeTurn buffer t = .ok (some t₁) := by
            unfold writeTurn
            rw [if_neg hgo]
            dsimp only
            rw [if_neg hdev, hbmap, Except.ok_bind]
            dsimp only
            rw [if_neg hbn, hwrite]
            rfl
          obtain ⟨t', hlater, hend⟩ := ih (writeTurn_within h hturn).1 hloop
          exact ⟨t', .head hturn hlater, hend⟩

/-- What every turn keeps, every later turn has. -/
theorem Later.within {turn : Transfer → Except Stop (Option Transfer)}
    (hturn : ∀ {t t'}, Within t → turn t = .ok (some t') → Within t' ∧ t'.last = t.last)
    (h : Within t) (hlater : Later turn t t') : Within t' ∧ t'.last = t.last := by
  induction hlater with
  | refl => exact ⟨h, rfl⟩
  | tail _ hstep ih =>
    obtain ⟨hw, hlast⟩ := hturn ih.1 hstep
    exact ⟨hw, hlast.trans ih.2⟩

/-- The loop starts with the flags changed. -/
theorem Within.setFlag (h : Within t) (iFlag' : UInt32) :
    Within { t with ino := { t.ino with iFlag := iFlag' } } :=
  ⟨h.offset_nonneg, h.offset_lt, h.size_nonneg, h.size_lt, h.regular⟩

/-- **`ReadI`** of a regular file. -/
theorem readI_within (h : Within t) (hread : readI t = .ok t') : Within t' ∧ t'.last = t.last := by
  have hchr : t.ino.iMode &&& IFMT ≠ IFCHR := by
    rw [h.regular]
    decide
  unfold readI at hread
  split at hread
  · cases hread
    exact ⟨h, rfl⟩
  · dsimp only at hread
    rw [if_neg hchr] at hread
    have hw := h.setFlag (t.ino.iFlag ||| IACC)
    obtain ⟨t₁, hlater, hend⟩ := readLoop_turns hw hread
    obtain ⟨hw₁, hlast⟩ := hlater.within readTurn_within hw
    obtain ⟨hw', hlast'⟩ := hend.within hw₁
    exact ⟨hw', hlast'.trans hlast⟩

/-- **`WriteI`** of a regular file. -/
theorem writeI_within (h : Within t) (hwrite : writeI buffer t = .ok t') :
    Within t' ∧ t'.last = t.last := by
  have hchr : t.ino.iMode &&& IFMT ≠ IFCHR := by
    rw [h.regular]
    decide
  have hw := h.setFlag (t.ino.iFlag ||| (IACC ||| IUPD))
  unfold writeI at hwrite
  dsimp only at hwrite
  rw [if_neg hchr] at hwrite
  split at hwrite
  · cases hwrite
    exact ⟨hw, rfl⟩
  · obtain ⟨t₁, hlater, hend⟩ := writeLoop_turns hw hwrite
    obtain ⟨hw₁, hlast⟩ := hlater.within writeTurn_within hw
    obtain ⟨hw', hlast'⟩ := hend.within hw₁
    exact ⟨hw', hlast'.trans hlast⟩

end Inode

namespace FileManager

open Inode

/-! ### The calls -/

/-- An open file, with its inode. -/
structure OpenedFile where
  fs : FsState
  ino : Inode
  fFlag : UInt32
  fOffset : ℤ

/-- The calls that use the position; `mem` is the memory of the caller. -/
inductive FileCall
  | seek (offset whence : ℤ)
  | read (base count : ℤ) (mem : ℤ → UInt8)
  | write (base count : ℤ) (mem : ℤ → UInt8)

/-- The position that `Seek` stores, a 32-bit number: for `whence` above 2 the offset counts
units of 512 bytes. -/
def sought (f : OpenedFile) (offset whence : ℤ) : ℤ :=
  let offset := if whence > 2 then int32 (offset * 2 ^ 9) else int32 offset
  let whence := if whence > 2 then whence - 3 else whence
  if whence = 0 then offset
  else if whence = 1 then int32 (f.fOffset + offset)
  else if whence = 2 then int32 (f.ino.iSize + offset)
  else f.fOffset

/-- `FileManager::Seek`. -/
def seek (f : OpenedFile) (offset whence : ℤ) : OpenedFile :=
  { f with fOffset := sought f offset whence }

/-- The transfer that `Rdwr` starts, with the inode locked. -/
def OpenedFile.transfer (f : OpenedFile) (base count : ℤ) (mem : ℤ → UInt8) : Transfer where
  fs := { f.fs with uError := .NOERROR }
  ino := { f.ino with iFlag := f.ino.iFlag ||| ILOCK }
  io := ⟨base, f.fOffset, count⟩
  mem := mem

/-- `FileManager::Rdwr` of a file that is no pipe. -/
def rdwr (buffer : ℤ → Block) (mode : UInt32) (f : OpenedFile) (base count : ℤ)
    (mem : ℤ → UInt8) : Except Stop OpenedFile := do
  if f.fFlag &&& mode = 0 then
    return { f with fs := { f.fs with uError := .EACCES } }
  let t ← if mode = FREAD then readI (f.transfer base count mem)
    else writeI buffer (f.transfer base count mem)
  return { f with
    fs := t.fs
    ino := t.ino.prele
    fOffset := int32 (f.fOffset + (count - t.io.mCount)) }

/-- One call. -/
def fileStep (buffer : ℤ → Block) (f : OpenedFile) : FileCall → Except Stop OpenedFile
  | .seek offset whence => .ok (seek f offset whence)
  | .read base count mem => rdwr buffer FREAD f base count mem
  | .write base count mem => rdwr buffer FWRITE f base count mem

/-! ### Runs -/

/-- A regular file whose position and size are not negative. -/
structure Legal (f : OpenedFile) : Prop where
  offset_nonneg : 0 ≤ f.fOffset
  offset_lt : f.fOffset < 2 ^ 31
  size_nonneg : 0 ≤ f.ino.iSize
  size_lt : f.ino.iSize < 2 ^ 31
  regular : f.ino.iMode &&& IFMT = 0

/-- What a turn of a loop may be: position and size are not negative, and `Bmap` stays inside the
arrays or refuses the block. -/
def TurnOk (t : Transfer) : Prop :=
  0 ≤ t.io.mOffset ∧ 0 ≤ t.ino.iSize ∧ LbnOk (t.io.mOffset.tdiv 512)

/-- The transfer as a loop starts with it. -/
def marked (t : Transfer) (flag : UInt32) : Transfer :=
  { t with ino := { t.ino with iFlag := t.ino.iFlag ||| flag } }

/-- `ReadI` or `WriteI` is entered with a position that is not negative, and every turn is as it
may be. -/
def Proper (buffer : ℤ → Block) (f : OpenedFile) : FileCall → Prop
  | .seek _ _ => True
  | .read base count mem => 0 ≤ f.fOffset ∧
      ∀ t, Later readTurn (marked (f.transfer base count mem) IACC) t → TurnOk t
  | .write base count mem => 0 ≤ f.fOffset ∧
      ∀ t, Later (writeTurn buffer) (marked (f.transfer base count mem) (IACC ||| IUPD)) t → TurnOk t

/-- A seek does not lead before the start of the file. -/
def Careful (f : OpenedFile) : FileCall → Prop
  | .seek offset whence => 0 ≤ sought f offset whence
  | _ => True

variable {buffer : ℤ → Block} {f f' : OpenedFile} {c : FileCall}

theorem sought_lt (h : Legal f) (offset whence : ℤ) : sought f offset whence < 2 ^ 31 := by
  have hlt := h.offset_lt
  unfold sought
  dsimp only
  split_ifs <;> first | exact (int32_bounds _).2 | exact hlt

theorem Legal.within (h : Legal f) (base count : ℤ) (mem : ℤ → UInt8) :
    Within (f.transfer base count mem) :=
  ⟨h.offset_nonneg, h.offset_lt, h.size_nonneg, h.size_lt, h.regular⟩

theorem turnOk_of_within {t : Transfer} (h : Within t) : TurnOk t := by
  refine ⟨h.offset_nonneg, h.size_nonneg, lbnOk ?_⟩
  rw [Int.tdiv_eq_ediv_of_nonneg h.offset_nonneg]
  have := h.offset_nonneg
  omega

theorem Legal.proper (h : Legal f) (buffer : ℤ → Block) (c : FileCall) : Proper buffer f c := by
  cases c with
  | seek offset whence => trivial
  | read base count mem =>
    refine ⟨h.offset_nonneg, fun t hlater => ?_⟩
    exact turnOk_of_within (hlater.within readTurn_within ((h.within base count mem).setFlag _)).1
  | write base count mem =>
    refine ⟨h.offset_nonneg, fun t hlater => ?_⟩
    exact turnOk_of_within (hlater.within writeTurn_within ((h.within base count mem).setFlag _)).1

/-- The file after a transfer. -/
theorem legal_of_within {t : Transfer} (h : Within t) {base count : ℤ} {mem : ℤ → UInt8}
    (hlast : t.last = (f.transfer base count mem).last) :
    Legal { f with
      fs := t.fs
      ino := t.ino.prele
      fOffset := int32 (f.fOffset + (count - t.io.mCount)) } := by
  obtain ⟨iFlag', hprele⟩ := prele_eq t.ino
  have hoffset : int32 (f.fOffset + (count - t.io.mCount)) = t.io.mOffset := by
    have hsum : t.io.mOffset + t.io.mCount = f.fOffset + count := hlast
    have hnonneg := h.offset_nonneg
    have hlt := h.offset_lt
    rw [int32_of_bounds (by omega) (by omega)]
    omega
  refine ⟨?_, ?_, ?_, ?_, ?_⟩
  · exact hoffset ▸ h.offset_nonneg
  · exact hoffset ▸ h.offset_lt
  · rw [hprele]
    exact h.size_nonneg
  · rw [hprele]
    exact h.size_lt
  · rw [hprele]
    exact h.regular

/-- **One call** keeps the file legal. -/
theorem Legal.step (h : Legal f) (hcareful : Careful f c) (hstep : fileStep buffer f c = .ok f') :
    Legal f' := by
  have hrefused : Legal { f with fs := { f.fs with uError := .EACCES } } :=
    ⟨h.offset_nonneg, h.offset_lt, h.size_nonneg, h.size_lt, h.regular⟩
  cases c with
  | seek offset whence =>
    cases hstep
    exact ⟨hcareful, sought_lt h offset whence, h.size_nonneg, h.size_lt, h.regular⟩
  | read base count mem =>
    change rdwr buffer FREAD f base count mem = .ok f' at hstep
    unfold rdwr at hstep
    split at hstep
    · cases hstep
      exact hrefused
    · rw [if_pos rfl] at hstep
      obtain ⟨t, hread, hstep⟩ := Except.bind_eq_ok.mp hstep
      cases hstep
      obtain ⟨hw, hlast⟩ := readI_within (h.within base count mem) hread
      exact legal_of_within hw hlast
  | write base count mem =>
    change rdwr buffer FWRITE f base count mem = .ok f' at hstep
    unfold rdwr at hstep
    split at hstep
    · cases hstep
      exact hrefused
    · obtain ⟨t, hwrite, hstep⟩ := Except.bind_eq_ok.mp hstep
      cases hstep
      obtain ⟨hw, hlast⟩ := writeI_within (h.within base count mem) hwrite
      exact legal_of_within hw hlast

/-- **In a run in which no seek leads before the start of the file** the position and the size
stay legal, and so does every turn of every transfer. -/
theorem offsets_run (h : Legal f) (hrun : Relation.ReflTransGen
      (fun f f' => ∃ c, Careful f c ∧ fileStep buffer f c = .ok f') f f') :
    0 ≤ f'.ino.iSize ∧ ∀ c, Proper buffer f' c := by
  have hlegal : Legal f' := by
    induction hrun with
    | refl => exact h
    | tail _ hstep ih =>
      obtain ⟨c, hcareful, hstep⟩ := hstep
      exact ih.step hcareful hstep
  exact ⟨hlegal.size_nonneg, hlegal.proper buffer⟩

/-- The empty file, just opened. -/
def openedFile : OpenedFile := ⟨oneFile.fs, empty, FREAD ||| FWRITE, 0⟩

theorem legal_openedFile : Legal openedFile :=
  ⟨by decide, by decide, by decide, by decide, by decide⟩

theorem offsets_run_seek : ∃ f', fileStep (fun _ _ => 0) openedFile (.seek 3 3) = .ok f' ∧
    f'.fOffset = 1536 ∧ ∀ c, Proper (fun _ _ => 0) f' c := by
  refine ⟨seek openedFile 3 3, rfl, by decide, ?_⟩
  refine (offsets_run legal_openedFile (.single ⟨.seek 3 3, ?_, rfl⟩)).2
  change 0 ≤ sought openedFile 3 3
  decide

/-- A seek to the byte before the first one is not refused, and the next call starts there. -/
theorem not_proper_beforeFirst : ¬ ∀ (buffer : ℤ → Block) (f f' : OpenedFile), Legal f →
    Relation.ReflTransGen (fun f f' => ∃ c, fileStep buffer f c = .ok f') f f' →
      0 ≤ f'.ino.iSize ∧ ∀ c, Proper buffer f' c := by
  intro hall
  have hproper := (hall (fun _ _ => 0) openedFile (seek openedFile (-1) 0) legal_openedFile
    (.single ⟨.seek (-1) 0, rfl⟩)).2 (.read 0 1 fun _ => 0)
  exact absurd hproper.1 (by decide)

end FileManager
end UnixV6pp
