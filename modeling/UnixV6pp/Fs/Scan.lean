import UnixV6pp.Fs.Located
import UnixV6pp.Fs.Records

/-!
# The search through a directory

As long as every free record it passes has no further units, the inner loop of
`NameI` stays in step with the records: it is at the head of one of them, `m_Count`
says how many units are left, and the buffer in its hands holds the unit it looks at.

## Main definitions

* `Directory` — a well formed directory without holes.
* `Directory.At` — the search is in step, at some offset.

## Main results

* `Directory.At.scanStep_live`, `Directory.At.scanStep_free` — **one record.**
* `Directory.At.scan_pass` — **any number of records** that do not match.
* `Directory.At.scanStep_sleeps` — the free record at which the search waits for itself.
-/

namespace UnixV6pp
namespace FileManager

open Words FileSystem Inode BufferManager DirectoryEntry IndexTree

/-! ### The buffers a search holds -/

/-- The blocks whose buffers are held when `pBuf` is the only one. -/
def held : Option Buf → List ℤ
  | some buf => [buf.bBlkno]
  | none => []

section Held

variable {s s' : Search} {blkno : ℤ}

theorem brelse_held (h : s.busy = held s.pBuf) : brelse s s.pBuf = { s with busy := [] } := by
  unfold brelse
  cases hbuf : s.pBuf with
  | none =>
    rw [h, hbuf]
    rfl
  | some buf =>
    rw [h, hbuf]
    simp only [held, List.erase_cons_head]

theorem breadBusy_own (h : blkno ∈ s.busy) : breadBusy s blkno = .error .ownBuffer :=
  if_pos h

theorem breadBusy_ok {buf : Buf} (h : breadBusy s blkno = .ok (buf, s')) :
    buf = bread s.fs blkno ∧ s' = { s with busy := blkno :: s.busy } := by
  unfold breadBusy at h
  split at h
  · cases h
  · cases h
    exact ⟨rfl, rfl⟩

/-- What reading on can do. -/
theorem reload_ok (h : reload s = .ok s') : s' = s ∨
    ∃ blkno, bmap s.fs s.ino (s.u.mOffset.tdiv 512) = .ok (blkno, s'.ino, s'.fs) ∧
      s' = { s with
        busy := blkno :: (brelse s s.pBuf).busy, ino := s'.ino, fs := s'.fs,
        pBuf := some (bread s'.fs blkno) } := by
  unfold reload at h
  split at h
  · obtain ⟨⟨blkno, ino, fs⟩, hbmap, h⟩ := Except.bind_eq_ok.mp h
    obtain ⟨⟨buf, s₁⟩, hbread, h⟩ := Except.bind_eq_ok.mp h
    obtain ⟨rfl, rfl⟩ := breadBusy_ok hbread
    cases h
    exact .inr ⟨blkno, hbmap, rfl⟩
  · cases h
    exact .inl rfl

/-- What the note of a free record can do: the buffer behind the record is let go at once. -/
theorem noteFree_ok (h : noteFree s = .ok s') :
    s' = s ∨ s' = { s with freeEntryOffset := s.u.mOffset } ∨
      ∃ length blkno, bmap s.fs s.ino (int32
          ((((length + 7) / 32 : ℕ) * 32 + s.u.mOffset) % 2 ^ 32 / 512)) =
            .ok (blkno, s'.ino, s'.fs) ∧
        ((length + 7) / 32 : ℕ) ≤ s.u.uDent.mAdditionEsize ∧
        s' = { s with freeEntryOffset := s.u.mOffset, ino := s'.ino, fs := s'.fs } := by
  unfold noteFree at h
  split at h
  · cases h
    exact .inl rfl
  · obtain ⟨length, -, h⟩ := Except.bind_eq_ok.mp h
    dsimp only at h
    split at h
    · next huse =>
      split at h
      · obtain ⟨⟨blkno, ino, fs⟩, hbmap, h⟩ := Except.bind_eq_ok.mp h
        obtain ⟨⟨buf, s₁⟩, hbread, h⟩ := Except.bind_eq_ok.mp h
        obtain ⟨rfl, rfl⟩ := breadBusy_ok hbread
        cases h
        refine .inr (.inr ⟨length, blkno, hbmap, huse, ?_⟩)
        simp only [brelse, bread, List.erase_cons_head]
      · cases h
        exact .inr (.inl rfl)
    · cases h
      exact .inl rfl

/-- A block that is not held is read and let go. -/
theorem breadBusy_brelse (h : blkno ∉ s.busy) :
    (do
      let (buf, s) ← breadBusy s blkno
      return brelse s (some buf) : Except Stop Search) = .ok s := by
  unfold breadBusy
  rw [if_neg h, Except.ok_bind]
  simp only [brelse, bread, List.erase_cons_head]
  rfl

end Held

/-! ### The records of a directory -/

variable {ι : Type*} [DecidableEq ι]

/-- A well formed directory of a device, all of whose blocks are there. -/
structure Directory (ι : Type*) [DecidableEq ι] where
  d : Files ι
  F : ι → FlatFile
  i : ι
  holds : Holds d F
  mapped : ∀ lbn, 512 * lbn < (F i).size → d.view.block i lbn ≠ 0
  /-- The offsets of the records. -/
  records : List ℕ
  framed : Framed (F i).bytes (F i).size 0 records

namespace Directory

variable (dir : Directory ι)

/-- The directory. -/
def f : FlatFile := dir.F dir.i

/-- The block of the unit at `o`. -/
def blockAt (o : ℕ) : ℤ := blockOf dir.d.fs (dir.d.inodes dir.i) (o / 512)

theorem framed_f : Framed dir.f.bytes dir.f.size 0 dir.records := dir.framed

theorem located : Located dir.d.fs (dir.d.inodes dir.i) dir.f := dir.holds.located dir.mapped

/-- The reads of `n` further units from `o` on. -/
def additionReads (o n : ℕ) : List UnitRead :=
  (List.range n).map fun k => .addition (o + 32 * k : ℕ) (dir.blockAt (o + 32 * k))

theorem additionReads_succ (o n : ℕ) : dir.additionReads o (n + 1) =
    .addition o (dir.blockAt o) :: dir.additionReads (o + 32) n := by
  rw [additionReads, List.range_succ_eq_map, List.map_cons, List.map_map, additionReads]
  congr 1
  refine List.map_congr_left fun k _ => ?_
  have heq : o + 32 * (k + 1) = o + 32 + 32 * k := by omega
  simp only [Function.comp, Nat.succ_eq_add_one, heq]

/-- The reads of the record at `o`: a free record is passed over behind its head. -/
def recordReads (o : ℕ) : List UnitRead :=
  .head o (dir.blockAt o) (entryAt dir.f.bytes o).mIno (entryAt dir.f.bytes o).mAdditionEsize ::
    if IsFree dir.f.bytes o then [] else dir.additionReads (o + 32) (unitsAt dir.f.bytes o)

/-- The search is in step at `o`. -/
structure At (s : Search) (o : ℕ) : Prop where
  fs_eq : o < dir.f.size → ∃ r, s.fs = dir.d.fs.ahead r
  ino_eq : o < dir.f.size → s.ino = dir.d.inodes dir.i
  mOffset_eq : s.u.mOffset = o
  mCount_eq : 32 * s.u.mCount = dir.f.size - o
  pBuf_eq : o < dir.f.size → o % 512 ≠ 0 → s.pBuf = some (bread dir.d.fs (dir.blockAt o))
  busy_eq : s.busy = held s.pBuf
  /-- The files are what they were, unless an `Alloc` failed. -/
  holds : s.fs.uError = .NOERROR → Holds (dir.d.set s.fs dir.i s.ino) dir.F

/-- What a search does not change on its way. -/
structure Same (s s' : Search) : Prop where
  uDirp_eq : s'.u.uDirp = s.u.uDirp
  uDbuf_eq : s'.u.uDbuf = s.u.uDbuf
  uCurdir_eq : s'.u.uCurdir = s.u.uCurdir

theorem Same.refl (s : Search) : Same s s := ⟨rfl, rfl, rfl⟩

theorem Same.trans {s s' s'' : Search} (h : Same s s') (h' : Same s' s'') : Same s s'' :=
  ⟨h'.uDirp_eq.trans h.uDirp_eq, h'.uDbuf_eq.trans h.uDbuf_eq, h'.uCurdir_eq.trans h.uCurdir_eq⟩

variable {dir} {s s' : Search} {o n : ℕ}

theorem dvd_size : 32 ∣ dir.f.size := dir.framed_f.dvd_end (dvd_zero _)

/-- The block in hand holds the bytes of the unit. -/
theorem blk_eq (ho : o < dir.f.size) (h32 : 32 ∣ o) {k : ℕ} (hk : k < 32) :
    dir.d.fs.blk (dir.blockAt o) (o % 512 + k) = dir.f.bytes (o + k) := by
  have hsize := dir.dvd_size
  have hbyte := dir.located.byte_eq (o + k) (by omega)
  have hdiv : (o + k) / 512 = o / 512 := by omega
  have hmod : (o + k) % 512 = o % 512 + k := by omega
  rw [hdiv, hmod] at hbyte
  exact hbyte

/-- The search takes hold of the block of the next unit. -/
theorem At.reload (h : dir.At s o) (ho : o < dir.f.size) :
    ∃ r, FileManager.reload s = .ok { s with
      fs := dir.d.fs.ahead r
      pBuf := some (bread dir.d.fs (dir.blockAt o))
      busy := [dir.blockAt o] } := by
  obtain ⟨r, hfs⟩ := h.fs_eq ho
  have hle := dir.located.size_le
  unfold FileManager.reload
  rw [h.mOffset_eq, tmod_cast]
  by_cases h0 : ((o % 512 : ℕ) : ℤ) = 0
  · have hlbn : o / 512 < 33030 := div_lt_of_lt (by omega)
    have hne : blockOf (dir.d.fs.ahead r) (dir.d.inodes dir.i) (o / 512) ≠ 0 :=
      dir.located.mapped _ (by omega)
    obtain ⟨r', hbmap⟩ := bmap_mapped hlbn hne
    rw [if_pos h0, brelse_held h.busy_eq]
    dsimp only
    rw [h.mOffset_eq, tdiv_cast, h.ino_eq ho, hfs, hbmap]
    exact ⟨r', rfl⟩
  · rw [if_neg h0]
    refine ⟨r, ?_⟩
    have hbuf := h.pBuf_eq ho (by omega)
    have hbusy := h.busy_eq
    rw [hbuf] at hbusy
    change _ = [dir.blockAt o] at hbusy
    rw [← hfs, ← hbuf, ← hbusy]
    rfl

/-- The unit in the block in hand. -/
theorem At.unitAt (h : dir.At s o) (r : ℤ) :
    FileManager.unitAt { s with
      fs := dir.d.fs.ahead r
      pBuf := some (bread dir.d.fs (dir.blockAt o))
      busy := [dir.blockAt o] } =
      .ok (dir.blockAt o, fun k => dir.d.fs.blk (dir.blockAt o) (o % 512 + k)) := by
  simp only [FileManager.unitAt, bread, h.mOffset_eq, tmod_cast, Int.toNat_natCast]
  rw [if_neg (by omega)]

/-- The search has read the unit at `o`. -/
theorem At.next (h : dir.At s o) (ho : o < dir.f.size) (h32 : 32 ∣ o) (r : ℤ) {u : User}
    (hoff : u.mOffset = s.u.mOffset) (hcount : u.mCount = s.u.mCount) (reads : List UnitRead) :
    dir.At { s with
      fs := dir.d.fs.ahead r
      pBuf := some (bread dir.d.fs (dir.blockAt o))
      busy := [dir.blockAt o]
      u := nextUnit u
      reads := reads } (o + 32) := by
  have hsize := dir.dvd_size
  have hle := dir.located.size_le
  have hsmall : maxFileSize < 2 ^ 31 := by decide
  have hcount₀ := h.mCount_eq
  refine ⟨fun _ => ⟨r, rfl⟩, fun _ => h.ino_eq ho, ?_, ?_, ?_, rfl, ?_⟩
  · rw [nextUnit, hoff, h.mOffset_eq]
    exact int32_of_bounds (by omega) (by omega)
  · change 32 * int32 (u.mCount - 1) = _
    rw [int32_of_bounds (by omega) (by omega)]
    omega
  · intro _ hne
    have hblock : dir.blockAt (o + 32) = dir.blockAt o := by
      unfold blockAt
      congr 1
      omega
    rw [hblock]
  · intro _
    change Holds (dir.d.set (dir.d.fs.ahead r) dir.i s.ino) dir.F
    rw [h.ino_eq ho]
    exact dir.holds.ahead r

theorem ofBytes_congr {b b' : ℕ → UInt8} (h : ∀ k < 32, b k = b' k) : ofBytes b = ofBytes b' := by
  unfold ofBytes getInt
  rw [h _ (by omega), h _ (by omega), h _ (by omega), h _ (by omega), h (4 * 7) (by omega),
    h (4 * 7 + 1) (by omega), h (4 * 7 + 2) (by omega), h (4 * 7 + 3) (by omega)]
  congr 1
  funext k
  by_cases hk : k < DIRSIZ
  · have hlt : 4 + k < 32 := by unfold DIRSIZ at hk; omega
    rw [if_pos hk, if_pos hk, h _ hlt]
  · rw [if_neg hk, if_neg hk]

/-- **The head** is read to `u_dent`. -/
theorem At.readHead (h : dir.At s o) (ho : o < dir.f.size) (h32 : 32 ∣ o) :
    ∃ r, FileManager.readHead s = .ok { s with
      fs := dir.d.fs.ahead r
      pBuf := some (bread dir.d.fs (dir.blockAt o))
      busy := [dir.blockAt o]
      u := nextUnit { s.u with uDent := entryAt dir.f.bytes o }
      reads := s.reads ++ [.head o (dir.blockAt o) (entryAt dir.f.bytes o).mIno
        (entryAt dir.f.bytes o).mAdditionEsize] } := by
  obtain ⟨r, hreload⟩ := h.reload ho
  have hentry : ofBytes (fun k => dir.d.fs.blk (dir.blockAt o) (o % 512 + k)) =
      entryAt dir.f.bytes o := ofBytes_congr fun k hk => blk_eq ho h32 hk
  refine ⟨r, ?_⟩
  unfold FileManager.readHead
  rw [hreload, Except.ok_bind, h.unitAt, Except.ok_bind]
  simp only [hentry, h.mOffset_eq]
  rfl

/-- **The further units** are read to `addition_entry`. -/
theorem At.readAdditions (h : dir.At s o) (h32 : 32 ∣ o) (index : ℕ) (hn : index + n ≤ 4)
    (hend : o + 32 * n ≤ dir.f.size) :
    ∃ s', FileManager.readAdditions n index s = .ok s' ∧ dir.At s' (o + 32 * n) ∧ Same s s' ∧
      s'.freeEntryOffset = s.freeEntryOffset ∧ s'.u.uDent = s.u.uDent ∧
      s'.reads = s.reads ++ dir.additionReads o n ∧
      ∀ k, s'.u.additionEntry k = if 32 * index ≤ k ∧ k < 32 * (index + n)
        then dir.f.bytes (o + (k - 32 * index)) else s.u.additionEntry k := by
  induction n generalizing index o s with
  | zero =>
    refine ⟨s, rfl, h, Same.refl s, rfl, rfl, (List.append_nil _).symm, fun k => ?_⟩
    rw [if_neg (by omega)]
  | succ n ih =>
    have ho : o < dir.f.size := by omega
    obtain ⟨r, hreload⟩ := h.reload ho
    set entry : ℕ → UInt8 := fun k => if 32 * index ≤ k ∧ k < 32 * index + 32
      then dir.d.fs.blk (dir.blockAt o) (o % 512 + (k - 32 * index)) else s.u.additionEntry k
      with hentry
    have h₁ := h.next ho h32 r (u := { s.u with additionEntry := entry }) rfl rfl
      (s.reads ++ [.addition o (dir.blockAt o)])
    obtain ⟨s', hrest, hat, hsame, hfree, hdent, hreads, hadd⟩ :=
      ih h₁ (by omega) (index + 1) (by omega) (by omega)
    refine ⟨s', ?_, ?_, ⟨hsame.1, hsame.2, hsame.3⟩, hfree, hdent, ?_, fun k => ?_⟩
    · rw [FileManager.readAdditions, hreload, Except.ok_bind, h.unitAt, Except.ok_bind]
      simp only [if_neg (show ¬ index ≥ 4 by omega)]
      rw [← hrest, ← h.mOffset_eq]
    · have heq : o + 32 * (n + 1) = o + 32 + 32 * n := by omega
      rw [heq]
      exact hat
    · rw [hreads, additionReads_succ, List.append_assoc]
      rfl
    · rw [hadd k]
      change (if _ then _ else entry k) = _
      simp only [hentry]
      by_cases hlast : 32 * (index + 1) ≤ k ∧ k < 32 * (index + 1 + n)
      · rw [if_pos hlast, if_pos (by omega)]
        congr 1
        omega
      · rw [if_neg hlast]
        by_cases hfirst : 32 * index ≤ k ∧ k < 32 * index + 32
        · rw [if_pos hfirst, if_pos (by omega), blk_eq ho h32 (by omega)]
        · rw [if_neg hfirst, if_neg (by omega)]

/-- **A live record** is read to its end and compared. -/
theorem At.scanStep_live (h : dir.At s o) (h32 : 32 ∣ o) (hend : endAt dir.f.bytes o ≤ dir.f.size)
    (hok : SizeOk dir.f.bytes o) (hlive : ¬ IsFree dir.f.bytes o) :
    ∃ s', scanStep s = .ok (decide (Begins s.u.uDbuf dir.f.bytes o), s') ∧
      dir.At s' (endAt dir.f.bytes o) ∧ Same s s' ∧ s'.freeEntryOffset = s.freeEntryOffset ∧
      s'.u.uDent = entryAt dir.f.bytes o ∧ s'.reads = s.reads ++ dir.recordReads o := by
  have ho : o < dir.f.size := lt_of_lt_of_le lt_endAt hend
  have hn := hok.units_le
  obtain ⟨r, hhead⟩ := h.readHead ho h32
  have h₁ := h.next ho h32 r (u := { s.u with uDent := entryAt dir.f.bytes o }) rfl rfl
    (s.reads ++ [.head o (dir.blockAt o) (entryAt dir.f.bytes o).mIno
      (entryAt dir.f.bytes o).mAdditionEsize])
  have hendAt : endAt dir.f.bytes o = o + 32 + 32 * unitsAt dir.f.bytes o := by
    unfold endAt; omega
  obtain ⟨s', hread, hat, hsame, hfree, hdent, hreads, hadd⟩ :=
    h₁.readAdditions (by omega) 0 (n := unitsAt dir.f.bytes o) (by omega) (by omega)
  have hsame' : Same s s' := ⟨hsame.1, hsame.2, hsame.3⟩
  have hmatched : matched s'.u = decide (Begins s.u.uDbuf dir.f.bytes o) := by
    rw [Bool.eq_iff_iff, decide_eq_true_iff, ← hsame'.uDbuf_eq]
    refine matched_iff hok hdent fun k hk => ?_
    rw [hadd k, if_pos (by omega), Nat.mul_zero, Nat.sub_zero]
  refine ⟨s', ?_, hendAt ▸ hat, hsame', hfree, hdent, ?_⟩
  · unfold scanStep
    rw [hhead, Except.ok_bind]
    refine (if_neg hlive).trans ?_
    change (do let s ← FileManager.readAdditions (unitsAt dir.f.bytes o) 0 _; _) = _
    rw [hread, Except.ok_bind, hmatched]
    rfl
  · rw [hreads, recordReads, if_neg hlive, List.append_assoc]
    rfl

/-- The search goes to sleep for the buffer it holds: the record at `o` is the first one it
would keep in mind, and the unit behind lies in the same block. -/
def Sleeps (o : ℕ) : Prop := 512 ≤ o + 32 ∧ (o + 32) % 512 ≠ 0

instance (o : ℕ) : Decidable (Sleeps o) := inferInstanceAs (Decidable (_ ∧ _))

/-- What `noteFree` does at a free record without further units. -/
theorem At.noteFree (h : dir.At s o) (ho : o < dir.f.size) (h32 : 32 ∣ o)
    (hunits : (entryAt dir.f.bytes o).mAdditionEsize = 0) {L : ℕ}
    (hL : stringLength s.u.uDirp = .ok L) (r : ℤ) {s₁ : Search}
    (hs₁ : s₁ = { s with
      fs := dir.d.fs.ahead r
      pBuf := some (bread dir.d.fs (dir.blockAt o))
      busy := [dir.blockAt o]
      u := nextUnit { s.u with uDent := entryAt dir.f.bytes o }
      reads := s.reads ++ dir.recordReads o }) :
    if s.freeEntryOffset = 0 ∧ L ≤ 24 then
      if Sleeps o then FileManager.noteFree s₁ = .error .ownBuffer
      else ∃ fs' ino', FileManager.noteFree s₁ =
          .ok { s₁ with fs := fs', ino := ino', freeEntryOffset := (o + 32 : ℕ) } ∧
        (o + 32 < dir.f.size → (∃ r, fs' = dir.d.fs.ahead r) ∧ ino' = dir.d.inodes dir.i) ∧
        (fs'.uError = .NOERROR → Holds (dir.d.set fs' dir.i ino') dir.F)
    else FileManager.noteFree s₁ = .ok s₁ := by
  have hle := dir.located.size_le
  have hsmall : maxFileSize < 2 ^ 31 := by decide
  have hsize := dir.dvd_size
  have h₁ : dir.At s₁ (o + 32) := by
    rw [hs₁]
    exact h.next ho h32 r (u := { s.u with uDent := entryAt dir.f.bytes o }) rfl rfl _
  have hdent : s₁.u.uDent.mAdditionEsize = 0 := by rw [hs₁]; exact hunits
  have hL₁ : stringLength s₁.u.uDirp = .ok L := by rw [hs₁]; exact hL
  have hfree₁ : s₁.freeEntryOffset = s.freeEntryOffset := by rw [hs₁]
  have hbuf : s₁.pBuf = some (bread dir.d.fs (dir.blockAt o)) := by rw [hs₁]
  have hbusy : s₁.busy = [dir.blockAt o] := by rw [hs₁]
  have hfs : s₁.fs = dir.d.fs.ahead r := by rw [hs₁]
  have hino : s₁.ino = dir.d.inodes dir.i := by rw [hs₁]; exact h.ino_eq ho
  have hbehind : (0 * 32 + ((o + 32 : ℕ) : ℤ)) % 2 ^ 32 = (o + 32 : ℕ) := by omega
  have hdiv : int32 (((o + 32 : ℕ) : ℤ) / 512) = ((o + 32) / 512 : ℕ) := by
    rw [int32_of_bounds (by omega) (by omega)]
    omega
  unfold FileManager.noteFree
  rw [hfree₁, h₁.mOffset_eq, hdent, hL₁]
  by_cases hnote : s.freeEntryOffset = 0 ∧ L ≤ 24
  · have huse : ((L + 7) / 32 : ℕ) = 0 := by omega
    rw [if_pos hnote, if_neg (not_not.mpr hnote.1)]
    simp only [Except.ok_bind, huse, Nat.cast_zero, le_refl, if_true, h₁.mOffset_eq, hbehind, hdiv]
    by_cases hsleeps : Sleeps o
    · -- the unit behind lies in the block in hand
      have hlbn : (o + 32) / 512 = o / 512 := by
        have h512 := hsleeps.2
        omega
      have hne : blockOf (dir.d.fs.ahead r) (dir.d.inodes dir.i) (o / 512) ≠ 0 :=
        dir.located.mapped _ (by omega)
      obtain ⟨r', hbmap⟩ := bmap_mapped (div_lt_of_lt (by omega)) hne
      rw [if_pos hsleeps, if_pos (by have := hsleeps.1; omega), hfs, hino, hlbn, hbmap, hbuf]
      simp only [Except.ok_bind]
      rw [breadBusy_own]
      · rfl
      · rw [hbusy]
        exact List.mem_singleton.mpr rfl
    · rw [if_neg hsleeps]
      by_cases h512 : o + 32 < 512
      · refine ⟨s₁.fs, s₁.ino, ?_, fun _ => ⟨⟨r, hfs⟩, hino⟩, h₁.holds⟩
        rw [if_neg (by omega)]
        rfl
      · have hmod : (o + 32) % 512 = 0 := by
          by_contra hne
          exact hsleeps ⟨by omega, hne⟩
        rw [if_pos (by omega), hfs, hino, hbuf]
        by_cases hlt : o + 32 < dir.f.size
        · -- the next block of the directory
          have hlbn : (o + 32) / 512 < 33030 := div_lt_of_lt (by omega)
          have hne : blockOf (dir.d.fs.ahead r) (dir.d.inodes dir.i) ((o + 32) / 512) ≠ 0 :=
            dir.located.mapped _ (by omega)
          obtain ⟨r', hbmap⟩ := bmap_mapped hlbn hne
          have hother : dir.blockAt o ≠ blockOf (dir.d.fs.ahead r) (dir.d.inodes dir.i)
              ((o + 32) / 512) := by
            intro heq
            have := dir.located.apart _ _ (by omega) (by omega) heq
            omega
          refine ⟨dir.d.fs.ahead r', dir.d.inodes dir.i, ?_, fun _ => ⟨⟨r', rfl⟩, rfl⟩,
            fun _ => dir.holds.ahead r'⟩
          rw [hbmap]
          refine breadBusy_brelse ?_
          rw [hbusy, List.mem_singleton]
          exact hother.symm
        · -- the block behind the directory
          obtain ⟨b, ino', fs', hbmap, hother, hholds⟩ := dir.holds.bmap_end dir.mapped r
            (show 512 * ((o + 32) / 512) = (dir.F dir.i).size by
              change _ = dir.f.size
              omega)
          refine ⟨fs', ino', ?_, fun hlt' => absurd hlt' hlt, hholds⟩
          rw [hbmap]
          refine breadBusy_brelse ?_
          rw [hbusy, List.mem_singleton]
          refine (hother _ ?_).symm
          change _ < dir.f.size
          omega
  · rw [if_neg hnote]
    by_cases hfree : s.freeEntryOffset = 0
    · have huse : ¬ (((L + 7) / 32 : ℕ) : ℤ) ≤ 0 := by omega
      rw [if_neg (not_not.mpr hfree)]
      simp only [Except.ok_bind, if_neg huse]
      rfl
    · rw [if_pos hfree]
      rfl

/-- The free record at which the search **waits for itself**. -/
theorem At.scanStep_sleeps (h : dir.At s o) (ho : o < dir.f.size) (h32 : 32 ∣ o)
    (hunits : (entryAt dir.f.bytes o).mAdditionEsize = 0) (hfree : IsFree dir.f.bytes o) {L : ℕ}
    (hL : stringLength s.u.uDirp = .ok L) (hnote : s.freeEntryOffset = 0 ∧ L ≤ 24)
    (hsleeps : Sleeps o) : scanStep s = .error .ownBuffer := by
  obtain ⟨r, hhead⟩ := h.readHead ho h32
  have hreads : dir.recordReads o = [.head o (dir.blockAt o) (entryAt dir.f.bytes o).mIno
      (entryAt dir.f.bytes o).mAdditionEsize] := by rw [recordReads, if_pos hfree]
  have hnoted := h.noteFree ho h32 hunits hL r rfl
  rw [if_pos hnote, if_pos hsleeps, hreads] at hnoted
  unfold scanStep
  rw [hhead, Except.ok_bind]
  refine (if_pos hfree).trans ?_
  rw [hnoted]
  rfl

/-- **A free record** without further units is passed over, and kept in mind if it is the
first that is large enough. -/
theorem At.scanStep_free (h : dir.At s o) (ho : o < dir.f.size) (h32 : 32 ∣ o)
    (hunits : (entryAt dir.f.bytes o).mAdditionEsize = 0) (hfree : IsFree dir.f.bytes o) {L : ℕ}
    (hL : stringLength s.u.uDirp = .ok L)
    (hawake : s.freeEntryOffset = 0 → L ≤ 24 → ¬ Sleeps o) :
    ∃ s', scanStep s = .ok (false, s') ∧ dir.At s' (endAt dir.f.bytes o) ∧ Same s s' ∧
      s'.freeEntryOffset = (if s.freeEntryOffset = 0 ∧ L ≤ 24 then ((o + 32 : ℕ) : ℤ)
        else s.freeEntryOffset) ∧
      s'.reads = s.reads ++ dir.recordReads o := by
  obtain ⟨r, hhead⟩ := h.readHead ho h32
  have hreads : dir.recordReads o = [.head o (dir.blockAt o) (entryAt dir.f.bytes o).mIno
      (entryAt dir.f.bytes o).mAdditionEsize] := by rw [recordReads, if_pos hfree]
  have hnoted := h.noteFree ho h32 hunits hL r rfl
  rw [hreads] at hnoted
  have h₁ := h.next ho h32 r (u := { s.u with uDent := entryAt dir.f.bytes o }) rfl rfl
    (s.reads ++ [.head o (dir.blockAt o) (entryAt dir.f.bytes o).mIno
      (entryAt dir.f.bytes o).mAdditionEsize])
  set s₁ : Search := { s with
    fs := dir.d.fs.ahead r
    pBuf := some (bread dir.d.fs (dir.blockAt o))
    busy := [dir.blockAt o]
    u := nextUnit { s.u with uDent := entryAt dir.f.bytes o }
    reads := s.reads ++ [.head o (dir.blockAt o) (entryAt dir.f.bytes o).mIno
      (entryAt dir.f.bytes o).mAdditionEsize] } with hs₁
  set kept : ℤ := if s.freeEntryOffset = 0 ∧ L ≤ 24 then ((o + 32 : ℕ) : ℤ)
    else s.freeEntryOffset with hkept
  obtain ⟨fs', ino', hok, hlt, hholds⟩ : ∃ fs' ino', FileManager.noteFree s₁ =
      .ok { s₁ with fs := fs', ino := ino', freeEntryOffset := kept } ∧
      (o + 32 < dir.f.size → (∃ r, fs' = dir.d.fs.ahead r) ∧ ino' = dir.d.inodes dir.i) ∧
      (fs'.uError = .NOERROR → Holds (dir.d.set fs' dir.i ino') dir.F) := by
    by_cases hnote : s.freeEntryOffset = 0 ∧ L ≤ 24
    · rw [if_pos hnote, if_neg (hawake hnote.1 hnote.2)] at hnoted
      rw [hkept, if_pos hnote]
      exact hnoted
    · rw [if_neg hnote] at hnoted
      rw [hkept, if_neg hnote]
      exact ⟨s₁.fs, s₁.ino, hnoted, fun hlt => ⟨h₁.fs_eq hlt, h₁.ino_eq hlt⟩, h₁.holds⟩
  have hle := dir.located.size_le
  have hsmall : maxFileSize < 2 ^ 31 := by decide
  have hsize := dir.dvd_size
  have hstay : int32 (s₁.u.mOffset + 32 * s₁.u.uDent.mAdditionEsize) = s₁.u.mOffset := by
    have hzero : s₁.u.uDent.mAdditionEsize = 0 := hunits
    rw [hzero, h₁.mOffset_eq, int32_of_bounds (by omega) (by omega)]
    omega
  have hendAt : endAt dir.f.bytes o = o + 32 := by
    unfold endAt unitsAt
    rw [hunits]
    rfl
  refine ⟨{ s₁ with fs := fs', ino := ino', freeEntryOffset := kept }, ?_, ?_, ⟨rfl, rfl, rfl⟩,
    rfl, by rw [hreads]⟩
  · unfold scanStep
    rw [hhead, Except.ok_bind]
    refine (if_pos hfree).trans ?_
    rw [hok, Except.ok_bind]
    simp only [hstay]
    rfl
  · rw [hendAt]
    exact ⟨fun hlt' => (hlt hlt').1, fun hlt' => (hlt hlt').2, h₁.mOffset_eq, h₁.mCount_eq,
      h₁.pBuf_eq, h₁.busy_eq, hholds⟩

/-! ### Several records -/

/-- The search can pass the records in the list: none matches, none that is free has further
units, and it does not wait for itself at the first free one. -/
structure Passes (dbuf b : ℕ → UInt8) (L : ℕ) (noted : Prop) (rs : List ℕ) : Prop where
  live : ∀ r ∈ rs, ¬ IsFree b r → ¬ Begins dbuf b r
  units : ∀ r ∈ rs, IsFree b r → (entryAt b r).mAdditionEsize = 0
  awake : ¬ noted → L ≤ 24 → ∀ r, rs.find? (IsFree b ·) = some r → ¬ Sleeps r

/-- What `freeEntryOffset` is after the records in the list. -/
def keptAfter (b : ℕ → UInt8) (L : ℕ) (kept : ℤ) (rs : List ℕ) : ℤ :=
  if kept = 0 ∧ L ≤ 24 then
    match rs.find? (IsFree b ·) with
    | some r => (r + 32 : ℕ)
    | none => 0
  else kept

section Kept

variable {b dbuf : ℕ → UInt8} {L : ℕ} {kept : ℤ} {r : ℕ} {rs : List ℕ} {noted : Prop}

theorem keptAfter_nil : keptAfter b L kept [] = kept := by
  unfold keptAfter
  split
  · next hkept => exact hkept.1.symm
  · rfl

theorem keptAfter_live (hlive : ¬ IsFree b r) :
    keptAfter b L kept (r :: rs) = keptAfter b L kept rs := by
  unfold keptAfter
  rw [List.find?_cons_of_neg (by simpa using hlive)]

theorem keptAfter_free (hfree : IsFree b r) : keptAfter b L kept (r :: rs) =
    if kept = 0 ∧ L ≤ 24 then ((r + 32 : ℕ) : ℤ) else kept := by
  unfold keptAfter
  rw [List.find?_cons_of_pos (by simpa using hfree)]

theorem keptAfter_cons :
    keptAfter b L kept (r :: rs) = keptAfter b L (keptAfter b L kept [r]) rs := by
  by_cases hfree : IsFree b r
  · rw [keptAfter_free hfree, keptAfter_free hfree]
    by_cases hkept : kept = 0 ∧ L ≤ 24
    · rw [if_pos hkept]
      unfold keptAfter
      exact (if_neg fun hzero => by omega).symm
    · rw [if_neg hkept]
      unfold keptAfter
      exact (if_neg hkept).symm
  · rw [keptAfter_live hfree, keptAfter_live hfree, keptAfter_nil]

theorem Passes.tail (h : Passes dbuf b L (kept ≠ 0) (r :: rs)) :
    Passes dbuf b L (keptAfter b L kept [r] ≠ 0) rs := by
  refine ⟨fun q hq => h.live q (by simp [hq]), fun q hq => h.units q (by simp [hq]), ?_⟩
  intro hnot hL q hq
  by_cases hfree : IsFree b r
  · rw [keptAfter_free hfree, not_not] at hnot
    split at hnot
    · omega
    · next hkept => exact absurd ⟨hnot, hL⟩ hkept
  · rw [keptAfter_live hfree, keptAfter_nil] at hnot
    refine h.awake hnot hL q ?_
    rw [List.find?_cons_of_neg (by simpa using hfree)]
    exact hq

end Kept

omit [DecidableEq ι] in
theorem scan_succ {fuel : ℕ} (hcount : s.u.mCount ≠ 0) (hstep : scanStep s = .ok (false, s')) :
    scan (fuel + 1) s = scan fuel s' := by
  rw [scan, if_neg hcount, hstep]
  rfl

omit [DecidableEq ι] in
theorem scan_stop {fuel : ℕ} {e : Stop} (hcount : s.u.mCount ≠ 0) (hstep : scanStep s = .error e) :
    scan (fuel + 1) s = .error e := by
  rw [scan, if_neg hcount, hstep]
  rfl

omit [DecidableEq ι] in
theorem scan_end (fuel : ℕ) (hcount : s.u.mCount = 0) : scan fuel s = .ok (false, s) := by
  cases fuel with
  | zero => exact if_pos hcount
  | succ fuel =>
    rw [scan, if_pos hcount]
    rfl

/-- **Any number of records that do not match** is passed in as many turns. -/
theorem At.scan_pass (h : dir.At s o) (h32 : 32 ∣ o) {rs : List ℕ} {e : ℕ}
    (hrs : Framed dir.f.bytes e o rs) (he : e ≤ dir.f.size) {L : ℕ}
    (hL : stringLength s.u.uDirp = .ok L)
    (hpass : Passes s.u.uDbuf dir.f.bytes L (s.freeEntryOffset ≠ 0) rs) :
    ∃ s', (∀ fuel, scan (fuel + rs.length) s = scan fuel s') ∧ dir.At s' e ∧ Same s s' ∧
      s'.freeEntryOffset = keptAfter dir.f.bytes L s.freeEntryOffset rs ∧
      s'.reads = s.reads ++ rs.flatMap dir.recordReads := by
  induction rs generalizing o s with
  | nil =>
    cases hrs
    exact ⟨s, fun _ => rfl, h, Same.refl s, keptAfter_nil.symm, (List.append_nil _).symm⟩
  | cons r rs ih =>
    obtain ⟨rfl, hok, hrest⟩ := hrs
    have hend : endAt dir.f.bytes r ≤ dir.f.size := hrest.le.trans he
    have ho : r < dir.f.size := lt_of_lt_of_le lt_endAt hend
    have hcount : s.u.mCount ≠ 0 := by
      have := h.mCount_eq
      omega
    have h32' : 32 ∣ endAt dir.f.bytes r := by
      unfold endAt
      omega
    obtain ⟨s₁, hstep, hat₁, hsame₁, hkept₁, hreads₁⟩ : ∃ s₁, scanStep s = .ok (false, s₁) ∧
        dir.At s₁ (endAt dir.f.bytes r) ∧ Same s s₁ ∧
        s₁.freeEntryOffset = keptAfter dir.f.bytes L s.freeEntryOffset [r] ∧
        s₁.reads = s.reads ++ dir.recordReads r := by
      by_cases hfree : IsFree dir.f.bytes r
      · obtain ⟨s₁, hstep, hat, hsame, hkept, hreads⟩ := h.scanStep_free ho h32
          (hpass.units r (by simp) hfree) hfree hL
          fun hzero hle => hpass.awake (not_not.mpr hzero) hle r (by simp [hfree])
        refine ⟨s₁, hstep, hat, hsame, ?_, hreads⟩
        rw [hkept, keptAfter_free hfree]
      · obtain ⟨s₁, hstep, hat, hsame, hkept, -, hreads⟩ := h.scanStep_live h32 hend hok hfree
        rw [decide_eq_false (hpass.live r (by simp) hfree)] at hstep
        refine ⟨s₁, hstep, hat, hsame, ?_, hreads⟩
        rw [hkept, keptAfter_live hfree, keptAfter_nil]
    have hpass₁ : Passes s₁.u.uDbuf dir.f.bytes L (s₁.freeEntryOffset ≠ 0) rs := by
      rw [hsame₁.uDbuf_eq, hkept₁]
      exact hpass.tail
    obtain ⟨s', hscan, hat, hsame, hkept, hreads⟩ :=
      ih hat₁ h32' hrest (by rw [hsame₁.uDirp_eq]; exact hL) hpass₁
    refine ⟨s', ?_, hat, hsame₁.trans hsame, ?_, ?_⟩
    · intro fuel
      rw [List.length_cons, ← Nat.add_assoc, scan_succ hcount hstep]
      exact hscan fuel
    · rw [hkept, hkept₁, ← keptAfter_cons]
    · rw [hreads, hreads₁, List.flatMap_cons, List.append_assoc]

/-! ### A small directory -/

/-- A file of at most six blocks, alone on a device that is full. -/
def smallFile (f : FlatFile) : Files Unit where
  fs := {
    sb := { sNfree := 1, sFree := fun _ => 0, sNinode := 0, sInode := fun _ => 0, sFlock := 0
            sIlock := 0, sFmod := 0, sRonly := 0 }
    blk := fun b k => f.bytes (512 * (b - 1024).toNat + k)
    uError := .NOERROR
    rablock := 0 }
  inodes := fun _ => { empty with
    iMode := 0x41FF
    iSize := f.size
    iAddr := fun k => if k < 6 ∧ 512 * k < f.size then (1024 + k : ℕ) else 0 }

variable {f : FlatFile}

theorem smallFile_addr (k : ℕ) : (smallFile f).view.addr () k =
    if k < 6 ∧ 512 * k < f.size then ((1024 + k : ℕ) : ℤ) else 0 := rfl

/-- The trees have no more than their roots. -/
theorem smallFile_at {t : Unit × ℕ} {p : List ℕ} (hp : IsPath t.2 p)
    (hne : (smallFile f).view.at t p ≠ 0) :
    p = [] ∧ t.2 < 6 ∧ (smallFile f).view.at t p = (1024 + t.2 : ℕ) := by
  obtain ⟨⟨⟩, k⟩ := t
  rw [View.at, smallFile_addr] at hne ⊢
  by_cases hk : k < 6 ∧ 512 * k < f.size
  · have hdepth : depth k = 0 := if_pos hk.1
    have hnil : p = [] := by
      have hle := hp.length_le
      rw [hdepth] at hle
      exact List.length_eq_zero_iff.mp (by omega)
    subst hnil
    exact ⟨rfl, hk.1, if_pos hk⟩
  · rw [if_neg hk, walk_zero] at hne
    exact absurd rfl hne

theorem inv_smallFile : Inv (smallFile f) [] := by
  have hplain : isDevice { empty with iMode := 0x41FF } = false := by decide
  have hnumber : (0 : ℤ) < inodeCount := by decide
  have hninode : (0 : ℤ) ≤ 100 := by decide
  have hnfree : (1 : ℤ) ≠ 0 := by decide
  refine ⟨⟨⟨hninode, rfl, by simp, List.nodup_nil, .inr ⟨1, rfl, .last rfl⟩⟩, hnfree,
    ⟨?_, ?_, ?_⟩⟩, fun _ => hplain, fun _ => hnumber⟩
  · intro t p u q hp hq hne heq
    obtain ⟨rfl, -, ht⟩ := smallFile_at hp hne
    obtain ⟨rfl, -, hu⟩ := smallFile_at hq (fun h => hne (heq.trans h))
    have heq' : (smallFile f).view.at t [] = (smallFile f).view.at u [] := heq
    rw [ht, hu] at heq'
    exact ⟨Prod.ext rfl (by omega), rfl⟩
  · intro t p hp hne
    obtain ⟨-, hk, ht⟩ := smallFile_at hp hne
    change DataBlock ((smallFile f).view.at t p)
    rw [ht]
    exact ⟨by unfold dataZoneStartSector; omega, by omega⟩
  · intro t p hp
    exact List.not_mem_nil

/-- The block of the small file that holds the byte at `o`. -/
theorem smallFile_block {o : ℕ} (hle : f.size ≤ 3072) (ho : o < f.size) :
    (smallFile f).view.block () (o / 512) = (1024 + o / 512 : ℕ) := by
  have hpath : lbnPath (o / 512) = (o / 512, []) := if_pos (by omega)
  rw [View.block, hpath, View.at, smallFile_addr]
  exact if_pos ⟨by omega, by omega⟩

theorem holds_smallFile (hle : f.size ≤ 3072) : Holds (smallFile f) fun _ => f := by
  have hmax : 3072 ≤ maxFileSize := by decide
  refine ⟨⟨[], inv_smallFile⟩, rfl, fun _ => rfl, fun _ => by omega, ?_⟩
  intro _ o ho
  rw [View.byte]
  by_cases hlt : o < f.size
  · rw [smallFile_block hle hlt, if_neg (by omega)]
    change f.bytes _ = f.bytes o
    congr 1
    omega
  · rw [f.zero_of_le o (by omega)]
    by_cases hzero : (smallFile f).view.block () (o / 512) = 0
    · exact if_pos hzero
    · -- the rest of the last block
      obtain ⟨-, hk, hat⟩ := smallFile_at (isPath_lbnPath (div_lt_of_lt ho)).1 hzero
      have h6 : o / 512 < 6 := by
        by_contra hnot
        rw [lbnPath, if_neg hnot] at hk
        split at hk <;> omega
      have hpath : lbnPath (o / 512) = (o / 512, []) := if_pos h6
      have hblock : (smallFile f).view.block () (o / 512) = (1024 + o / 512 : ℕ) := by
        rw [View.block, hat, hpath]
      rw [if_neg hzero, hblock]
      change f.bytes _ = 0
      exact f.zero_of_le _ (by omega)

/-- **Any well formed directory of at most six blocks** lies on a device. -/
theorem exists_directory (hle : f.size ≤ 3072) {rs : List ℕ} (hrs : Framed f.bytes f.size 0 rs) :
    ∃ dir : Directory Unit, dir.f = f ∧ dir.records = rs ∧
      (dir.d.inodes dir.i).iMode = 0x41FF := by
  refine ⟨⟨smallFile f, fun _ => f, (), holds_smallFile hle, ?_, rs, hrs⟩, rfl, rfl, rfl⟩
  intro lbn hlt
  have hblock := smallFile_block (o := 512 * lbn) hle hlt
  rw [Nat.mul_div_cancel_left lbn (by omega)] at hblock
  rw [hblock]
  omega

end Directory

end FileManager
end UnixV6pp
