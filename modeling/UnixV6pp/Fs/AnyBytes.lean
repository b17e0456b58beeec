import UnixV6pp.Fs.ScanOnce

/-!
# A search in any bytes

A directory may hold anything.  The search follows what the bytes say: a free record moves
`m_Offset` over units that `m_Count` does not count, and a count of further units may lead over the
end of the file, or back.  The buffer in hand changes only where a block begins.

## Main definitions

* `AnyDirectory` — a file of units without a hole.
* `Spot` — where a search has come to, in terms of the bytes of the file.
* `EndsInside` — going by the bytes, the search ends before it leaves the file.
* `Contained` — the search of the code ends, stays in the file and in `addition_entry`.

## Main results

* `readHead_spot`, `readAdditions_spot`, `noteFree_spot` — the parts of a turn.
* `contained_iff` — **when a search in any bytes is contained.**
-/

namespace UnixV6pp
namespace FileManager

open Words FileSystem Inode BufferManager DirectoryEntry

/-- A file of units of 32 bytes that lies on a device without a hole. -/
structure AnyDirectory where
  fs : FsState
  ino : Inode
  f : FlatFile
  located : Located fs ino f
  dvd_size : 32 ∣ f.size

/-! ### Where the search is -/

/-- The fields of `u`, the logical block in hand and `freeEntryOffset`. -/
structure Spot where
  u : User
  cur : ℕ
  freeEntryOffset : ℤ

namespace Spot

/-- The logical block from which the next unit is read. -/
def block (t : Spot) : ℕ := if t.u.mOffset % 512 = 0 then (t.u.mOffset / 512).toNat else t.cur

/-- The place of the next unit in the file. -/
def place (t : Spot) : ℕ := 512 * t.block + (t.u.mOffset % 512).toNat

/-- The next unit lies in the file of this size. -/
structure Inside (size : ℕ) (t : Spot) : Prop where
  nonneg : 0 ≤ t.u.mOffset
  lt : t.u.mOffset < size
  place_lt : t.place < size

/-- The unit is read as a head. -/
def readHead (b : ℕ → UInt8) (t : Spot) : Spot :=
  { t with u := nextUnit { t.u with uDent := entryAt b t.place }, cur := t.block }

/-- The unit is read as the further unit `index`. -/
def readAddition (b : ℕ → UInt8) (index : ℕ) (t : Spot) : Spot :=
  { t with
    u := nextUnit { t.u with
      additionEntry := fun k => if 32 * index ≤ k ∧ k < 32 * index + 32
        then b (t.place + (k - 32 * index)) else t.u.additionEntry k }
    cur := t.block }

/-- `n` units are read as further units. -/
def readAdditions (b : ℕ → UInt8) : ℕ → ℕ → Spot → Spot
  | 0, _, t => t
  | n + 1, index, t => readAdditions b n (index + 1) (t.readAddition b index)

/-- These units lie in the file. -/
def AdditionsInside (f : FlatFile) : ℕ → ℕ → Spot → Prop
  | 0, _, _ => True
  | n + 1, index, t =>
    t.Inside f.size ∧ AdditionsInside f n (index + 1) (t.readAddition f.bytes index)

/-- How many further units are read behind a head. -/
def units (t : Spot) : ℕ := t.u.uDent.mAdditionEsize.toNat

/-- The record whose head was read is read to its end. -/
def rest (b : ℕ → UInt8) (t : Spot) : Spot := t.readAdditions b t.units 0

/-- Its further units have room in `addition_entry` and lie in the file. -/
structure Fits (f : FlatFile) (t : Spot) : Prop where
  units_le : t.units ≤ 4
  inside : t.AdditionsInside f t.units 0

/-- The further units of a free record are passed over. -/
def skip (t : Spot) : Spot :=
  { t with u := { t.u with mOffset := int32 (t.u.mOffset + 32 * t.u.uDent.mAdditionEsize) } }

/-- Where the unit behind the part to be used is looked up, if `length` characters are left. -/
def behind (u : User) (length : ℕ) : ℤ := (((length + 7) / 32 : ℕ) * 32 + u.mOffset) % 2 ^ 32

/-- The free record is kept in mind if it is the first one that is large enough; the unit behind
the part to be used is in the first block, or in the file and not in the block in hand. -/
def Noted (size : ℕ) (t t' : Spot) : Prop :=
  if t.freeEntryOffset ≠ 0 then t' = t
  else ∃ length, stringLength t.u.uDirp = .ok length ∧
    if (((length + 7) / 32 : ℕ) : ℤ) ≤ t.u.uDent.mAdditionEsize then
      t' = { t with freeEntryOffset := t.u.mOffset } ∧
        (behind t.u length < 512 ∨ behind t.u length < size ∧ behind t.u length / 512 ≠ t.cur)
    else t' = t

/-- The search before the first unit is read. -/
def start (f : FlatFile) (u : User) (dbuf : ℕ → UInt8) (dirp : List UInt8) : Spot where
  u := { u with uDirp := dirp, uDbuf := dbuf, mOffset := 0, mCount := (f.size / 32 : ℕ) }
  cur := 0
  freeEntryOffset := 0

end Spot

open Spot

/-- **The records that the search comes to lie in the file**, none that is in use has more than
four further units, and one matches or the units are counted up exactly. -/
inductive EndsInside (f : FlatFile) : Spot → Prop
  | counted {t : Spot} : t.u.mCount = 0 → EndsInside f t
  | free {t t' : Spot} : t.u.mCount ≠ 0 → t.Inside f.size →
      (t.readHead f.bytes).u.uDent.mIno = 0 → (t.readHead f.bytes).Noted f.size t' →
      EndsInside f t'.skip → EndsInside f t
  | other {t : Spot} : t.u.mCount ≠ 0 → t.Inside f.size →
      (t.readHead f.bytes).u.uDent.mIno ≠ 0 → (t.readHead f.bytes).Fits f →
      matched ((t.readHead f.bytes).rest f.bytes).u = false →
      EndsInside f ((t.readHead f.bytes).rest f.bytes) → EndsInside f t
  | found {t : Spot} : t.u.mCount ≠ 0 → t.Inside f.size →
      (t.readHead f.bytes).u.uDent.mIno ≠ 0 → (t.readHead f.bytes).Fits f →
      matched ((t.readHead f.bytes).rest f.bytes).u = true → EndsInside f t

/-! ### What the code reads -/

/-- A unit was read inside the file, at its offset and from the block that holds it. -/
def InFile (dir : AnyDirectory) : UnitRead → Prop
  | .head offset blkno _ _ | .addition offset blkno => offset < dir.f.size ∧
    ∃ p < dir.f.size, blkno = blockOf dir.fs dir.ino (p / 512) ∧ (p % 512 : ℕ) = offset % 512

/-- The offset at which `noteFree` reads. -/
def lookup (s : Search) : List ℤ :=
  if s.freeEntryOffset ≠ 0 then []
  else match stringLength s.u.uDirp with
    | .error _ => []
    | .ok length =>
      if (((length + 7) / 32 : ℕ) : ℤ) ≤ s.u.uDent.mAdditionEsize ∧ behind s.u length ≥ 512 then
        [behind s.u length]
      else []

/-- The offsets at which `noteFree` reads in a search. -/
def lookups : ℕ → Search → List ℤ
  | 0, _ => []
  | fuel + 1, s =>
    if s.u.mCount = 0 then []
    else
      (match readHead s with
        | .ok s => if s.u.uDent.mIno = 0 then lookup s else []
        | .error _ => []) ++
      match scanStep s with
        | .ok (false, s) => lookups fuel s
        | _ => []

/-- **The search ends, reads the directory only below its size and does not write behind
`addition_entry`.** -/
def Contained (dir : AnyDirectory) (s : Search) : Prop :=
  ∃ fuel found s', scan fuel s = .ok (found, s') ∧ (∀ r ∈ s'.reads, InFile dir r) ∧
    ∀ o ∈ lookups fuel s, o < dir.f.size

/-! ### Reading a unit -/

/-- The search of the code is at the spot. -/
structure Shows (dir : AnyDirectory) (s : Search) (t : Spot) : Prop where
  fs_eq : ∃ r, s.fs = dir.fs.ahead r
  ino_eq : s.ino = dir.ino
  u_eq : s.u = t.u
  free_eq : s.freeEntryOffset = t.freeEntryOffset
  dvd : (32 : ℤ) ∣ t.u.mOffset
  busy_eq : s.busy = held s.pBuf
  pBuf_eq : s.pBuf = none ∧ t.u.mOffset % 512 = 0 ∨
    s.pBuf = some (bread dir.fs (blockOf dir.fs dir.ino t.cur)) ∧ 512 * t.cur < dir.f.size

theorem dvd_int32 {x : ℤ} (h : (32 : ℤ) ∣ x) : (32 : ℤ) ∣ int32 x := by
  rw [int32_eq]
  omega

section Unit

variable {dir : AnyDirectory} {s s' : Search} {t : Spot} {n index : ℕ}

theorem Shows.block_lt (h : Shows dir s t) (h0 : 0 ≤ t.u.mOffset) (hlt : t.u.mOffset < dir.f.size) :
    512 * t.block < dir.f.size := by
  unfold Spot.block
  split
  · omega
  · next hne =>
    rcases h.pBuf_eq with ⟨-, hzero⟩ | ⟨-, hcur⟩
    · exact absurd hzero hne
    · exact hcur

/-- The buffer of the next unit is in hand. -/
theorem Shows.reload (h : Shows dir s t) (h0 : 0 ≤ t.u.mOffset) (hlt : t.u.mOffset < dir.f.size) :
    ∃ r, FileManager.reload s = .ok { s with
      fs := dir.fs.ahead r
      pBuf := some (bread dir.fs (blockOf dir.fs dir.ino t.block))
      busy := [blockOf dir.fs dir.ino t.block] } := by
  obtain ⟨r, hfs⟩ := h.fs_eq
  obtain ⟨o, ho⟩ := Int.eq_ofNat_of_zero_le h0
  have hle := dir.located.size_le
  have hblock := h.block_lt h0 hlt
  unfold FileManager.reload
  rw [h.u_eq, ho, tmod_cast]
  by_cases hmod : t.u.mOffset % 512 = 0
  · have hb : t.block = o / 512 := by
      unfold Spot.block
      rw [if_pos hmod]
      omega
    have hne : blockOf (dir.fs.ahead r) dir.ino (o / 512) ≠ 0 :=
      dir.located.mapped _ (by omega)
    obtain ⟨r', hbmap⟩ := bmap_mapped (show o / 512 < 33030 from div_lt_of_lt (by omega)) hne
    rw [if_pos (by omega), brelse_held h.busy_eq]
    dsimp only
    rw [h.u_eq, ho, tdiv_cast, h.ino_eq, hfs, hbmap, hb]
    exact ⟨r', rfl⟩
  · have hb : t.block = t.cur := if_neg hmod
    rcases h.pBuf_eq with ⟨-, hzero⟩ | ⟨hbuf, -⟩
    · exact absurd hzero hmod
    · have hbusy := h.busy_eq
      rw [hbuf] at hbusy
      change _ = [blockOf dir.fs dir.ino t.cur] at hbusy
      refine ⟨r, ?_⟩
      rw [if_neg (by omega), hb, ← hfs, ← hbuf, ← hbusy, ← h.u_eq]
      rfl

/-- The unit in the buffer. -/
theorem Shows.unitAt (h : Shows dir s t) (h0 : 0 ≤ t.u.mOffset) (r : ℤ) :
    FileManager.unitAt { s with
      fs := dir.fs.ahead r
      pBuf := some (bread dir.fs (blockOf dir.fs dir.ino t.block))
      busy := [blockOf dir.fs dir.ino t.block] } =
      .ok (blockOf dir.fs dir.ino t.block, fun k =>
        dir.fs.blk (blockOf dir.fs dir.ino t.block) ((t.u.mOffset % 512).toNat + k)) := by
  have hmod : t.u.mOffset.tmod 512 = t.u.mOffset % 512 := Int.tmod_eq_emod_of_nonneg h0
  simp only [FileManager.unitAt, bread, h.u_eq, hmod]
  rw [if_neg (by omega)]

/-- Its bytes. -/
theorem Shows.blk_eq (h : Shows dir s t) (hplace : t.place < dir.f.size) {k : ℕ} (hk : k < 32) :
    dir.fs.blk (blockOf dir.fs dir.ino t.block) ((t.u.mOffset % 512).toNat + k) =
      dir.f.bytes (t.place + k) := by
  have hdvd := h.dvd
  have hsize := dir.dvd_size
  have hdef : t.place = 512 * t.block + (t.u.mOffset % 512).toNat := rfl
  have hbyte := dir.located.byte_eq (t.place + k) (by omega)
  have hdiv : (t.place + k) / 512 = t.block := by omega
  have hmod : (t.place + k) % 512 = (t.u.mOffset % 512).toNat + k := by omega
  rw [hdiv, hmod] at hbyte
  exact hbyte

/-- The search has read the unit. -/
theorem Shows.next (h : Shows dir s t) (h0 : 0 ≤ t.u.mOffset) (hlt : t.u.mOffset < dir.f.size)
    (r : ℤ) {u : User} (hoff : u.mOffset = t.u.mOffset) (reads : List UnitRead) :
    Shows dir { s with
      fs := dir.fs.ahead r
      pBuf := some (bread dir.fs (blockOf dir.fs dir.ino t.block))
      busy := [blockOf dir.fs dir.ino t.block]
      u := nextUnit u
      reads := reads } { t with u := nextUnit u, cur := t.block } := by
  refine ⟨⟨r, rfl⟩, h.ino_eq, rfl, h.free_eq, ?_, rfl, .inr ⟨rfl, h.block_lt h0 hlt⟩⟩
  have hdvd := h.dvd
  exact dvd_int32 (by rw [hoff]; omega)

/-- **A head is read.** -/
theorem Shows.readHead (h : Shows dir s t) (h0 : 0 ≤ t.u.mOffset)
    (hlt : t.u.mOffset < dir.f.size) :
    ∃ s₁ mIno mAdditionEsize, FileManager.readHead s = .ok s₁ ∧
      s₁.reads = s.reads ++
        [.head t.u.mOffset (blockOf dir.fs dir.ino t.block) mIno mAdditionEsize] ∧
      s₁.busy = [blockOf dir.fs dir.ino t.block] ∧
      (t.place < dir.f.size → Shows dir s₁ (t.readHead dir.f.bytes)) := by
  obtain ⟨r, hreload⟩ := h.reload h0 hlt
  set dent : DirectoryEntry := ofBytes fun k => dir.fs.blk (blockOf dir.fs dir.ino t.block)
    ((t.u.mOffset % 512).toNat + k) with hdent
  have hread : FileManager.readHead s = .ok { s with
      fs := dir.fs.ahead r
      pBuf := some (bread dir.fs (blockOf dir.fs dir.ino t.block))
      busy := [blockOf dir.fs dir.ino t.block]
      u := nextUnit { t.u with uDent := dent }
      reads := s.reads ++ [.head t.u.mOffset (blockOf dir.fs dir.ino t.block) dent.mIno
        dent.mAdditionEsize] } := by
    unfold FileManager.readHead
    rw [hreload, Except.ok_bind, h.unitAt h0, Except.ok_bind]
    simp only [h.u_eq]
    rfl
  refine ⟨_, _, _, hread, rfl, rfl, fun hplace => ?_⟩
  have hentry : dent = entryAt dir.f.bytes t.place :=
    Directory.ofBytes_congr fun k hk => h.blk_eq hplace hk
  rw [hentry]
  exact h.next h0 hlt r (u := { t.u with uDent := entryAt dir.f.bytes t.place }) rfl _

/-- **A further unit is read.** -/
theorem Shows.readAddition (h : Shows dir s t) (h0 : 0 ≤ t.u.mOffset)
    (hlt : t.u.mOffset < dir.f.size) (hindex : index < 4) (n : ℕ) :
    ∃ s₁, FileManager.readAdditions (n + 1) index s = FileManager.readAdditions n (index + 1) s₁ ∧
      s₁.reads = s.reads ++ [.addition t.u.mOffset (blockOf dir.fs dir.ino t.block)] ∧
      (t.place < dir.f.size → Shows dir s₁ (t.readAddition dir.f.bytes index)) := by
  obtain ⟨r, hreload⟩ := h.reload h0 hlt
  set entry : ℕ → UInt8 := fun k => if 32 * index ≤ k ∧ k < 32 * index + 32
    then dir.fs.blk (blockOf dir.fs dir.ino t.block) ((t.u.mOffset % 512).toNat + (k - 32 * index))
    else t.u.additionEntry k with hentry
  have hread : FileManager.readAdditions (n + 1) index s =
      FileManager.readAdditions n (index + 1) { s with
        fs := dir.fs.ahead r
        pBuf := some (bread dir.fs (blockOf dir.fs dir.ino t.block))
        busy := [blockOf dir.fs dir.ino t.block]
        u := nextUnit { t.u with additionEntry := entry }
        reads := s.reads ++ [.addition t.u.mOffset (blockOf dir.fs dir.ino t.block)] } := by
    rw [FileManager.readAdditions, hreload, Except.ok_bind, h.unitAt h0, Except.ok_bind]
    simp only [if_neg (show ¬ index ≥ 4 by omega), h.u_eq]
    rfl
  refine ⟨_, hread, rfl, fun hplace => ?_⟩
  have hbytes : entry = fun k => if 32 * index ≤ k ∧ k < 32 * index + 32
      then dir.f.bytes (t.place + (k - 32 * index)) else t.u.additionEntry k := by
    funext k
    rw [hentry]
    dsimp only
    split
    · next hk => exact h.blk_eq hplace (by omega)
    · rfl
  rw [hbytes]
  exact h.next h0 hlt r (u := { t.u with
    additionEntry := fun k => if 32 * index ≤ k ∧ k < 32 * index + 32
      then dir.f.bytes (t.place + (k - 32 * index)) else t.u.additionEntry k }) rfl _

/-! ### Only what lies in the file -/

/-- A read that is in the file is one of the unit at the spot. -/
theorem Shows.inside (h : Shows dir s t) (h0 : 0 ≤ t.u.mOffset) (hlt : t.u.mOffset < dir.f.size)
    (hread : ∃ p < dir.f.size, blockOf dir.fs dir.ino t.block = blockOf dir.fs dir.ino (p / 512) ∧
      (p % 512 : ℕ) = t.u.mOffset % 512) : t.Inside dir.f.size := by
  obtain ⟨p, hp, hblock, hmod⟩ := hread
  have hb : t.block = p / 512 :=
    dir.located.apart _ _ (h.block_lt h0 hlt) (by omega) hblock
  refine ⟨h0, hlt, ?_⟩
  have hdef : t.place = 512 * t.block + (t.u.mOffset % 512).toNat := rfl
  omega

/-- The unit at the spot is read inside the file. -/
theorem Spot.Inside.inFile (hin : t.Inside dir.f.size) :
    t.u.mOffset < dir.f.size ∧ ∃ p < dir.f.size,
      blockOf dir.fs dir.ino t.block = blockOf dir.fs dir.ino (p / 512) ∧
      (p % 512 : ℕ) = t.u.mOffset % 512 := by
  have h0 := hin.nonneg
  have hdef : t.place = 512 * t.block + (t.u.mOffset % 512).toNat := rfl
  have hdiv : t.place / 512 = t.block := by omega
  refine ⟨hin.lt, t.place, hin.place_lt, by rw [hdiv], by omega⟩

/-- Nothing is read at a negative offset. -/
theorem nonneg_of_reload {s₁ : Search} {unit : ℤ × (ℕ → UInt8)} (hreload : reload s = .ok s₁)
    (hunit : unitAt s₁ = .ok unit) : 0 ≤ s.u.mOffset := by
  by_contra hneg
  have hle : 0 ≤ (-s.u.mOffset).tmod 512 := Int.tmod_nonneg _ (by omega)
  rw [Int.neg_tmod] at hle
  by_cases hmod : s.u.mOffset.tmod 512 = 0
  · -- `i_addr` has no element in front of the first
    have hlbn : s.u.mOffset.tdiv 512 < 0 := by
      have := Int.mul_tdiv_add_tmod s.u.mOffset 512
      omega
    unfold reload at hreload
    rw [if_pos hmod] at hreload
    obtain ⟨⟨phyBlkno, ino, fs⟩, hbmap, -⟩ := Except.bind_eq_ok.mp hreload
    change bmap s.fs s.ino (s.u.mOffset.tdiv 512) = _ at hbmap
    unfold bmap at hbmap
    rw [if_neg (by unfold hugeFileBlock; omega), if_pos (by omega)] at hbmap
    unfold bmapDirect at hbmap
    obtain ⟨_, hread, -⟩ := Except.bind_eq_ok.mp hbmap
    rw [readAt, if_neg (by omega)] at hread
    cases hread
  · have hu := (reload_frame hreload).1
    unfold unitAt at hunit
    split at hunit
    · cases hunit
    · rw [hu, if_pos (by omega)] at hunit
      cases hunit

theorem readHead_reads {s₁ : Search} (h : readHead s = .ok s₁) :
    0 ≤ s.u.mOffset ∧ ∃ blkno mIno mAdditionEsize,
      s₁.reads = s.reads ++ [.head s.u.mOffset blkno mIno mAdditionEsize] := by
  unfold readHead at h
  obtain ⟨s₂, hreload, h⟩ := Except.bind_eq_ok.mp h
  obtain ⟨⟨blkno, unit⟩, hunit, h⟩ := Except.bind_eq_ok.mp h
  cases h
  obtain ⟨hu, hreads⟩ := reload_frame hreload
  refine ⟨nonneg_of_reload hreload hunit, blkno, (ofBytes unit).mIno,
    (ofBytes unit).mAdditionEsize, ?_⟩
  rw [← hu, ← hreads]

theorem readAdditions_reads (h : readAdditions (n + 1) index s = .ok s') :
    0 ≤ s.u.mOffset ∧ index < 4 ∧ ∃ s₁ blkno, readAdditions n (index + 1) s₁ = .ok s' ∧
      s₁.reads = s.reads ++ [.addition s.u.mOffset blkno] := by
  rw [readAdditions] at h
  obtain ⟨s₂, hreload, h⟩ := Except.bind_eq_ok.mp h
  obtain ⟨⟨blkno, unit⟩, hunit, h⟩ := Except.bind_eq_ok.mp h
  dsimp only at h
  split at h
  · cases h
  · obtain ⟨hu, hreads⟩ := reload_frame hreload
    refine ⟨nonneg_of_reload hreload hunit, by omega, _, blkno, h, ?_⟩
    rw [← hu, ← hreads]

/-- The reads come one after the other. -/
theorem readAdditions_append (h : readAdditions n index s = .ok s') :
    ∃ log, s'.reads = s.reads ++ log := by
  obtain ⟨log, k, hreads, -⟩ := readAdditions_agree h
  exact ⟨log, hreads⟩

/-- **The further units of a record** that fits. -/
theorem Shows.readAdditions (h : Shows dir s t) (hn : index + n ≤ 4)
    (hin : t.AdditionsInside dir.f n index) :
    ∃ s' log, FileManager.readAdditions n index s = .ok s' ∧
      Shows dir s' (t.readAdditions dir.f.bytes n index) ∧ s'.reads = s.reads ++ log ∧
      ∀ r ∈ log, InFile dir r := by
  induction n generalizing index s t with
  | zero => exact ⟨s, [], rfl, h, (List.append_nil _).symm, by simp⟩
  | succ n ih =>
    obtain ⟨hunit, hrest⟩ := hin
    obtain ⟨s₁, hread, hreads, hshows⟩ :=
      h.readAddition hunit.nonneg hunit.lt (show index < 4 by omega) n
    obtain ⟨s', log, hread', hshows', hreads', hlog⟩ :=
      ih (hshows hunit.place_lt) (by omega) hrest
    refine ⟨s', .addition t.u.mOffset (blockOf dir.fs dir.ino t.block) :: log,
      hread.trans hread', hshows', ?_, ?_⟩
    · rw [hreads', hreads, List.append_assoc]
      rfl
    · intro r hr
      rcases List.mem_cons.mp hr with rfl | hr
      · exact hunit.inFile
      · exact hlog r hr

/-- **Further units read inside the file** have room and lie in the file. -/
theorem Shows.additionsInside (h : Shows dir s t)
    (hread : FileManager.readAdditions n index s = .ok s') (hreads : ∀ r ∈ s'.reads, InFile dir r) :
    (n = 0 ∨ index + n ≤ 4) ∧ t.AdditionsInside dir.f n index := by
  induction n generalizing index s t with
  | zero => exact ⟨.inl rfl, trivial⟩
  | succ n ih =>
    obtain ⟨h0, hindex, s₁, blkno, hrest, hs₁⟩ := readAdditions_reads hread
    obtain ⟨log, hlog⟩ := readAdditions_append hrest
    rw [h.u_eq] at h0 hs₁
    have hlt : t.u.mOffset < dir.f.size :=
      (hreads (.addition t.u.mOffset blkno) (by rw [hlog, hs₁]; simp)).1
    obtain ⟨s₂, hread₂, hs₂, hshows⟩ := h.readAddition h0 hlt hindex n
    rw [hread₂] at hread
    obtain ⟨log₂, hlog₂⟩ := readAdditions_append hread
    have hunit := h.inside h0 hlt
      (hreads (.addition t.u.mOffset _) (by rw [hlog₂, hs₂]; simp)).2
    obtain ⟨hn, hrest⟩ := ih (hshows hunit.place_lt) hread
    exact ⟨.inr (by omega), hunit, hrest⟩

/-! ### Free records -/

/-- **A free record is noted.** -/
theorem Shows.noteFree {t' : Spot} (h : Shows dir s t)
    (hbusy : s.busy = [blockOf dir.fs dir.ino t.cur]) (hcur : 512 * t.cur < dir.f.size)
    (hnoted : t.Noted dir.f.size t') :
    ∃ s', FileManager.noteFree s = .ok s' ∧ Shows dir s' t' ∧ s'.busy = s.busy ∧
      s'.reads = s.reads ∧ ∀ o ∈ lookup s, o < dir.f.size := by
  have hle := dir.located.size_le
  unfold FileManager.noteFree lookup
  unfold Noted at hnoted
  by_cases hfree : t.freeEntryOffset ≠ 0
  · rw [if_pos hfree] at hnoted
    subst hnoted
    rw [h.free_eq, if_pos hfree, if_pos hfree]
    exact ⟨s, rfl, h, rfl, rfl, by simp⟩
  · rw [if_neg hfree] at hnoted
    obtain ⟨length, hlength, hnoted⟩ := hnoted
    rw [h.free_eq, if_neg hfree, if_neg hfree, h.u_eq, hlength, Except.ok_bind]
    dsimp only
    change ∃ s', (if (((length + 7) / 32 : ℕ) : ℤ) ≤ t.u.uDent.mAdditionEsize then
      if behind t.u length ≥ 512 then _ else _ else _) = _ ∧ _
    by_cases huse : (((length + 7) / 32 : ℕ) : ℤ) ≤ t.u.uDent.mAdditionEsize
    · rw [if_pos huse] at hnoted ⊢
      obtain ⟨rfl, hbehind⟩ := hnoted
      have hnext : ∀ r, Shows dir { s with freeEntryOffset := t.u.mOffset, fs := dir.fs.ahead r }
          { t with freeEntryOffset := t.u.mOffset } := fun r =>
        ⟨⟨r, rfl⟩, h.ino_eq, h.u_eq, rfl, h.dvd, h.busy_eq, h.pBuf_eq⟩
      obtain ⟨r, hfs⟩ := h.fs_eq
      by_cases h512 : behind t.u length ≥ 512
      · rcases hbehind with hlt | ⟨hlt, hother⟩
        · omega
        · obtain ⟨p, hp⟩ := Int.eq_ofNat_of_zero_le (show 0 ≤ behind t.u length by omega)
          have hlbn : int32 (behind t.u length / 512) = (p / 512 : ℕ) := by
            rw [int32_of_bounds (by omega) (by unfold maxFileSize at hle; omega)]
            omega
          have hne : blockOf (dir.fs.ahead r) dir.ino (p / 512) ≠ 0 :=
            dir.located.mapped _ (by omega)
          obtain ⟨r', hbmap⟩ := bmap_mapped (show p / 512 < 33030 from div_lt_of_lt (by omega)) hne
          refine ⟨_, ?_, hnext r', rfl, rfl, ?_⟩
          · rw [if_pos h512, h.ino_eq, hfs]
            change (bmap (dir.fs.ahead r) dir.ino (int32 (behind t.u length / 512)) >>= _) = _
            rw [hlbn, hbmap]
            refine (breadBusy_brelse ?_).trans ?_
            · rw [hbusy, List.mem_singleton]
              intro heq
              have := dir.located.apart _ _ (by omega) hcur heq
              omega
            · rw [← h.u_eq]
              rfl
          · intro o ho
            rw [if_pos ⟨huse, h512⟩, List.mem_singleton] at ho
            omega
      · refine ⟨_, ?_, hnext r, rfl, rfl, ?_⟩
        · rw [if_neg h512, ← hfs, ← h.u_eq]
          rfl
        · rw [if_neg fun hall => h512 hall.2]
          simp
    · rw [if_neg huse] at hnoted ⊢
      subst hnoted
      refine ⟨s, rfl, h, rfl, rfl, ?_⟩
      rw [if_neg fun hall => huse hall.1]
      simp

/-- **A free record whose noting goes through** and looks up only what lies in the file. -/
theorem Shows.noted (h : Shows dir s t) (hbusy : s.busy = [blockOf dir.fs dir.ino t.cur])
    (hnote : FileManager.noteFree s = .ok s') (hlookup : ∀ o ∈ lookup s, o < dir.f.size) :
    ∃ t' : Spot, t.Noted dir.f.size t' := by
  have hle := dir.located.size_le
  unfold FileManager.noteFree at hnote
  unfold lookup at hlookup
  unfold Noted
  by_cases hfree : t.freeEntryOffset ≠ 0
  · exact ⟨t, by rw [if_pos hfree]⟩
  · rw [h.free_eq, if_neg hfree, h.u_eq] at hnote hlookup
    simp only [if_neg hfree]
    obtain ⟨length, hlength, hnote⟩ := Except.bind_eq_ok.mp hnote
    rw [hlength] at hlookup
    dsimp only at hlookup
    by_cases huse : (((length + 7) / 32 : ℕ) : ℤ) ≤ t.u.uDent.mAdditionEsize
    · refine ⟨{ t with freeEntryOffset := t.u.mOffset }, length, hlength, ?_⟩
      rw [if_pos huse]
      refine ⟨rfl, ?_⟩
      by_contra hnot
      obtain ⟨h512, hother⟩ := not_or.mp hnot
      rw [if_pos ⟨huse, show behind t.u length ≥ 512 by omega⟩] at hlookup
      have hlt := hlookup _ (List.mem_singleton.mpr rfl)
      -- the block looked up is the one in hand
      have hlbn : int32 (behind t.u length / 512) = t.cur := by
        rw [int32_of_bounds (by omega) (by unfold maxFileSize at hle; omega)]
        omega
      obtain ⟨r, hfs⟩ := h.fs_eq
      have hne : blockOf (dir.fs.ahead r) dir.ino t.cur ≠ 0 := dir.located.mapped _ (by omega)
      obtain ⟨r', hbmap⟩ := bmap_mapped (show t.cur < 33030 by unfold maxFileSize at hle; omega) hne
      change (if (((length + 7) / 32 : ℕ) : ℤ) ≤ t.u.uDent.mAdditionEsize then
        if behind t.u length ≥ 512 then
          (bmap s.fs s.ino (int32 (behind t.u length / 512)) >>= _) else _ else _) = _ at hnote
      rw [if_pos huse, if_pos (by omega), h.ino_eq, hfs, hlbn, hbmap, Except.ok_bind] at hnote
      obtain ⟨⟨buf, s₁⟩, hbread, -⟩ := Except.bind_eq_ok.mp hnote
      rw [breadBusy_own] at hbread
      · cases hbread
      · change _ ∈ s.busy
        rw [hbusy, List.mem_singleton]
        rfl
    · refine ⟨t, length, hlength, ?_⟩
      rw [if_neg huse]

end Unit

/-! ### The search -/

section Scan

variable {dir : AnyDirectory} {s s' : Search} {t : Spot} {fuel : ℕ} {found : Bool}

theorem scan_append (h : scan fuel s = .ok (found, s')) : ∃ log, s'.reads = s.reads ++ log := by
  obtain ⟨log, k, hreads, -⟩ := scan_skipped h
  exact ⟨log, hreads⟩

theorem Shows.count_eq (h : Shows dir s t) : s.u.mCount = t.u.mCount := by rw [h.u_eq]

/-- The further units of a free record are passed over. -/
theorem Shows.skip (h : Shows dir s t) (hbusy : s.busy ≠ []) : Shows dir { s with
    u := { s.u with mOffset := int32 (s.u.mOffset + 32 * s.u.uDent.mAdditionEsize) } } t.skip := by
  refine ⟨h.fs_eq, h.ino_eq, ?_, h.free_eq, ?_, h.busy_eq, ?_⟩
  · rw [h.u_eq]
    rfl
  · have hdvd := h.dvd
    exact dvd_int32 (by omega)
  · refine .inr (h.pBuf_eq.resolve_left fun hnone => hbusy ?_)
    rw [h.busy_eq, hnone.1]
    rfl

theorem scan_turn (hcount : s.u.mCount ≠ 0) (hstep : scanStep s = .ok (found, s')) :
    scan (fuel + 1) s = if found then .ok (true, s') else scan fuel s' := by
  rw [scan, if_neg hcount, hstep]
  cases found <;> rfl

theorem lookups_turn {s₁ : Search} (hcount : s.u.mCount ≠ 0) (hhead : readHead s = .ok s₁)
    (hstep : scanStep s = .ok (found, s')) :
    lookups (fuel + 1) s = (if s₁.u.uDent.mIno = 0 then lookup s₁ else []) ++
      if found then [] else lookups fuel s' := by
  rw [lookups, if_neg hcount, hhead, hstep]
  cases found <;> rfl

/-- **A record in use** that fits. -/
theorem Shows.scanStep_live (h : Shows dir s t) (hin : t.Inside dir.f.size)
    (hlive : (t.readHead dir.f.bytes).u.uDent.mIno ≠ 0)
    (hfits : (t.readHead dir.f.bytes).Fits dir.f) :
    ∃ s', scanStep s =
        .ok (matched ((t.readHead dir.f.bytes).rest dir.f.bytes).u, s') ∧
      Shows dir s' ((t.readHead dir.f.bytes).rest dir.f.bytes) ∧
      ((∀ r ∈ s.reads, InFile dir r) → ∀ r ∈ s'.reads, InFile dir r) := by
  obtain ⟨s₁, mIno, esize, hhead, hs₁, -, hshows⟩ := h.readHead hin.nonneg hin.lt
  have h₁ := hshows hin.place_lt
  have hunits : 0 + (t.readHead dir.f.bytes).units ≤ 4 := by
    have := hfits.units_le
    omega
  obtain ⟨s', log, hread, h', hs', hlog⟩ := h₁.readAdditions hunits hfits.inside
  refine ⟨s', ?_, h', ?_⟩
  · unfold scanStep
    rw [hhead, Except.ok_bind]
    refine (if_neg (by rw [h₁.u_eq]; exact hlive)).trans ?_
    rw [h₁.u_eq]
    change (FileManager.readAdditions (t.readHead dir.f.bytes).units 0 s₁ >>= _) = _
    rw [hread, Except.ok_bind, h'.u_eq]
    rfl
  · intro hreads r hr
    rw [hs', hs₁, List.mem_append, List.mem_append, List.mem_singleton] at hr
    rcases hr with (hr | rfl) | hr
    · exact hreads r hr
    · exact hin.inFile
    · exact hlog r hr

/-- It looks up nothing. -/
theorem Shows.lookups_live (h : Shows dir s t) (hin : t.Inside dir.f.size)
    (hlive : (t.readHead dir.f.bytes).u.uDent.mIno ≠ 0) (hcount : s.u.mCount ≠ 0)
    (hstep : scanStep s = .ok (found, s')) :
    lookups (fuel + 1) s = if found then [] else lookups fuel s' := by
  obtain ⟨s₁, mIno, esize, hhead, -, -, hshows⟩ := h.readHead hin.nonneg hin.lt
  have h₁ := hshows hin.place_lt
  rw [lookups_turn hcount hhead hstep, if_neg (by rw [h₁.u_eq]; exact hlive), List.nil_append]

/-- **A free record** is noted and passed over. -/
theorem Shows.scanStep_free {t' : Spot} (h : Shows dir s t) (hin : t.Inside dir.f.size)
    (hfree : (t.readHead dir.f.bytes).u.uDent.mIno = 0)
    (hnoted : (t.readHead dir.f.bytes).Noted dir.f.size t') :
    ∃ s₁ s', FileManager.readHead s = .ok s₁ ∧ s₁.u.uDent.mIno = 0 ∧ (∀ o ∈ lookup s₁, o < dir.f.size) ∧
      scanStep s = .ok (false, s') ∧ Shows dir s' t'.skip ∧
      ((∀ r ∈ s.reads, InFile dir r) → ∀ r ∈ s'.reads, InFile dir r) := by
  obtain ⟨s₁, mIno, esize, hhead, hs₁, hbusy, hshows⟩ := h.readHead hin.nonneg hin.lt
  have h₁ := hshows hin.place_lt
  obtain ⟨s₂, hnote, h₂, hbusy₂, hs₂, hlookup⟩ :=
    h₁.noteFree hbusy (h.block_lt hin.nonneg hin.lt) hnoted
  have hzero : s₁.u.uDent.mIno = 0 := by rw [h₁.u_eq]; exact hfree
  refine ⟨s₁, _, hhead, hzero, hlookup, ?_, h₂.skip (by simp [hbusy₂, hbusy]), ?_⟩
  · unfold scanStep
    rw [hhead, Except.ok_bind]
    refine (if_pos hzero).trans ?_
    rw [hnote]
    rfl
  · intro hreads r hr
    change r ∈ s₂.reads at hr
    rw [hs₂, hs₁, List.mem_append, List.mem_singleton] at hr
    rcases hr with hr | rfl
    · exact hreads r hr
    · exact hin.inFile

/-- **What ends by the bytes is contained.** -/
theorem contained_of_ends (hends : EndsInside dir.f t) (h : Shows dir s t)
    (hreads : ∀ r ∈ s.reads, InFile dir r) : Contained dir s := by
  induction hends generalizing s with
  | @counted t hcount =>
    have hcount' : s.u.mCount = 0 := h.count_eq.trans hcount
    exact ⟨0, false, s, if_pos hcount', hreads, by simp [lookups]⟩
  | @free t t' hcount hin hfree hnoted _ ih =>
    obtain ⟨s₁, s', hhead, hzero, hlookup, hstep, h', hreads'⟩ := h.scanStep_free hin hfree hnoted
    obtain ⟨fuel, found, s'', hscan, hreads'', hlookups⟩ := ih h' (hreads' hreads)
    have hcount' : s.u.mCount ≠ 0 := by rw [h.count_eq]; exact hcount
    refine ⟨fuel + 1, found, s'', ?_, hreads'', ?_⟩
    · rw [scan_turn hcount' hstep]
      exact hscan
    · intro o ho
      rw [lookups_turn hcount' hhead hstep, if_pos hzero, List.mem_append] at ho
      rcases ho with ho | ho
      · exact hlookup o ho
      · exact hlookups o ho
  | @other t hcount hin hlive hfits hmatch _ ih =>
    obtain ⟨s', hstep, h', hreads'⟩ := h.scanStep_live hin hlive hfits
    obtain ⟨fuel, found, s'', hscan, hreads'', hlookups⟩ := ih h' (hreads' hreads)
    have hcount' : s.u.mCount ≠ 0 := by rw [h.count_eq]; exact hcount
    rw [hmatch] at hstep
    refine ⟨fuel + 1, found, s'', ?_, hreads'', ?_⟩
    · rw [scan_turn hcount' hstep]
      exact hscan
    · intro o ho
      rw [h.lookups_live hin hlive hcount' hstep] at ho
      exact hlookups o ho
  | @found t hcount hin hlive hfits hmatch =>
    obtain ⟨s', hstep, -, hreads'⟩ := h.scanStep_live hin hlive hfits
    have hcount' : s.u.mCount ≠ 0 := by rw [h.count_eq]; exact hcount
    rw [hmatch] at hstep
    refine ⟨1, true, s', scan_turn hcount' hstep, hreads' hreads, ?_⟩
    intro o ho
    rw [h.lookups_live hin hlive hcount' hstep, if_pos rfl] at ho
    simp at ho

/-- **What is contained ends by the bytes.** -/
theorem ends_of_contained (h : Shows dir s t) (hscan : scan fuel s = .ok (found, s'))
    (hreads : ∀ r ∈ s'.reads, InFile dir r) (hlookups : ∀ o ∈ lookups fuel s, o < dir.f.size) :
    EndsInside dir.f t := by
  induction fuel generalizing s t with
  | zero =>
    rw [scan] at hscan
    split at hscan
    · next hcount => exact .counted (h.count_eq ▸ hcount)
    · cases hscan
  | succ fuel ih =>
    by_cases hcount : s.u.mCount = 0
    · exact .counted (h.count_eq ▸ hcount)
    have hcount' : t.u.mCount ≠ 0 := h.count_eq ▸ hcount
    obtain ⟨⟨matched₁, s₂⟩, hstep, hrest⟩ : ∃ r, scanStep s = .ok r ∧
        (if r.1 then .ok (true, r.2) else scan fuel r.2) = .ok (found, s') := by
      rw [scan, if_neg hcount] at hscan
      obtain ⟨⟨matched₁, s₂⟩, hstep, hrest⟩ := Except.bind_eq_ok.mp hscan
      refine ⟨_, hstep, ?_⟩
      cases matched₁ <;> exact hrest
    have hlog₂ : ∃ log, s'.reads = s₂.reads ++ log := by
      dsimp only at hrest
      split at hrest
      · cases hrest
        exact ⟨[], (List.append_nil _).symm⟩
      · exact scan_append hrest
    have hreads₂ : ∀ r ∈ s₂.reads, InFile dir r := by
      obtain ⟨log, hlog⟩ := hlog₂
      intro r hr
      exact hreads r (by rw [hlog]; exact List.mem_append_left _ hr)
    -- the head
    have hstep' := hstep
    unfold scanStep at hstep'
    obtain ⟨s₁, hhead, hturn⟩ := Except.bind_eq_ok.mp hstep'
    have hlog₁ : ∃ log, s₂.reads = s₁.reads ++ log := by
      split at hturn
      · obtain ⟨s₃, hnote, hturn⟩ := Except.bind_eq_ok.mp hturn
        cases hturn
        exact ⟨[], by rw [List.append_nil]; exact (noteFree_frame hnote).2⟩
      · obtain ⟨s₃, hadd, hturn⟩ := Except.bind_eq_ok.mp hturn
        cases hturn
        exact readAdditions_append hadd
    obtain ⟨log₁, hlog₁⟩ := hlog₁
    obtain ⟨h0, blkno, mIno, esize, hs₁⟩ := readHead_reads hhead
    rw [h.u_eq] at h0 hs₁
    have hlt : t.u.mOffset < dir.f.size :=
      (hreads₂ (.head t.u.mOffset blkno mIno esize) (by rw [hlog₁, hs₁]; simp)).1
    obtain ⟨s₁', mIno', esize', hhead', hs₁', hbusy, hshows⟩ := h.readHead h0 hlt
    cases hhead.symm.trans hhead'
    have hin := h.inside h0 hlt
      (hreads₂ (.head t.u.mOffset _ mIno' esize') (by rw [hlog₁, hs₁']; simp)).2
    have h₁ := hshows hin.place_lt
    have hlook : ∀ o ∈ (if s₁.u.uDent.mIno = 0 then lookup s₁ else []) ++
        (if matched₁ then [] else lookups fuel s₂), o < dir.f.size := by
      rw [← lookups_turn hcount hhead hstep]
      exact hlookups
    split at hturn
    · next hfree =>
      obtain ⟨s₃, hnote, hturn⟩ := Except.bind_eq_ok.mp hturn
      cases hturn
      rw [if_pos hfree] at hlook
      obtain ⟨t', hnoted⟩ := h₁.noted hbusy hnote fun o ho => hlook o (List.mem_append_left _ ho)
      obtain ⟨s₃', hnote', h₃, hbusy₃, -⟩ := h₁.noteFree hbusy (h.block_lt h0 hlt) hnoted
      cases hnote.symm.trans hnote'
      have h₂ := h₃.skip (by rw [hbusy₃, hbusy]; simp)
      refine .free hcount' hin (by rw [← h₁.u_eq]; exact hfree) hnoted ?_
      exact ih h₂ hrest fun o ho => hlook o (List.mem_append_right _ ho)
    · next hlive =>
      obtain ⟨s₃, hadd, hturn⟩ := Except.bind_eq_ok.mp hturn
      cases hturn
      have hlive' : (t.readHead dir.f.bytes).u.uDent.mIno ≠ 0 := by
        rw [← h₁.u_eq]
        exact hlive
      rw [h₁.u_eq] at hadd
      obtain ⟨hn, hinside⟩ := h₁.additionsInside hadd hreads₂
      have hfits : (t.readHead dir.f.bytes).Fits dir.f := by
        refine ⟨?_, hinside⟩
        change (t.readHead dir.f.bytes).u.uDent.mAdditionEsize.toNat ≤ 4
        omega
      obtain ⟨s₃', hstep₃, h₃, -⟩ := h.scanStep_live hin hlive' hfits
      obtain ⟨-, rfl⟩ := Prod.mk.inj (Except.ok.inj (hstep.symm.trans hstep₃))
      rw [if_neg hlive, List.nil_append] at hlook
      cases hmatch : matched ((t.readHead dir.f.bytes).rest dir.f.bytes).u with
      | true => exact .found hcount' hin hlive' hfits hmatch
      | false =>
        refine .other hcount' hin hlive' hfits hmatch (ih h₃ ?_ ?_)
        · rw [h₃.u_eq, hmatch] at hrest
          exact hrest
        · rw [h₃.u_eq, hmatch] at hlook
          exact hlook

end Scan

/-- The search starts at the beginning. -/
theorem shows_start (dir : AnyDirectory) (u : User) (dbuf : ℕ → UInt8) (dirp : List UInt8) :
    Shows dir (startSearch dir.fs dir.ino u dbuf dirp) (Spot.start dir.f u dbuf dirp) := by
  refine ⟨⟨dir.fs.rablock, rfl⟩, rfl, ?_, rfl, dvd_zero _, rfl, .inl ⟨rfl, rfl⟩⟩
  have hsize := dir.located.size_eq
  have hcount : dir.ino.iSize.tdiv 32 = (dir.f.size / 32 : ℕ) := by
    rw [hsize, Int.tdiv_eq_ediv_of_nonneg (by omega)]
    omega
  unfold startSearch
  rw [hcount]
  rfl

/-- **When a search in any bytes is contained**: the records it comes to, each found behind the one
before it by its own count, lie in the file, have room in `addition_entry`, and lead to a match or
to the exact end of the count. -/
theorem contained_iff (dir : AnyDirectory) (u : User) (dbuf : ℕ → UInt8) (dirp : List UInt8) :
    Contained dir (startSearch dir.fs dir.ino u dbuf dirp) ↔
      EndsInside dir.f (Spot.start dir.f u dbuf dirp) := by
  constructor
  · rintro ⟨fuel, found, s', hscan, hreads, hlookups⟩
    exact ends_of_contained (shows_start dir u dbuf dirp) hscan hreads hlookups
  · intro hends
    exact contained_of_ends hends (shows_start dir u dbuf dirp) (by simp [startSearch])

/-! ### A count that leads over the end -/

/-- A file of at most six blocks, alone on a device. -/
def AnyDirectory.small (f : FlatFile) (hle : f.size ≤ 3072) (h32 : 32 ∣ f.size) : AnyDirectory where
  fs := (Directory.smallFile f).fs
  ino := (Directory.smallFile f).inodes ()
  f := f
  located := by
    refine (Directory.holds_smallFile hle).located (i := ()) fun lbn hlt => ?_
    have hblock := Directory.smallFile_block (o := 512 * lbn) hle hlt
    rw [Nat.mul_div_cancel_left lbn (by omega)] at hblock
    rw [hblock]
    omega
  dvd_size := h32

/-- One unit, the head of a record in use that names one further unit. -/
def longRecord : FlatFile where
  size := 32
  bytes := fun k => if k = 0 ∨ k = 28 then 1 else if k = 4 then 97 else 0
  zero_of_le := fun k hk => by rw [if_neg (by omega), if_neg (by omega)]

/-- The component `a`. -/
def letterA (k : ℕ) : UInt8 := if k = 0 then 97 else 0

/-- **The search goes on behind the end of the file.** -/
theorem not_contained : ¬ ∀ (dir : AnyDirectory) (u : User) (dbuf : ℕ → UInt8)
    (dirp : List UInt8), Contained dir (startSearch dir.fs dir.ino u dbuf dirp) := by
  intro hall
  set dir := AnyDirectory.small longRecord (by decide) (by decide)
  obtain ⟨fuel, found, s', hscan, hreads, hlookups⟩ := hall dir default letterA [0]
  have hends := ends_of_contained (shows_start dir default letterA [0]) hscan hreads hlookups
  have hfits : ¬ ((Spot.start dir.f default letterA [0]).readHead dir.f.bytes).Fits dir.f := by
    rintro ⟨-, hinside⟩
    have hunits : ((Spot.start dir.f default letterA [0]).readHead dir.f.bytes).units = 1 := by
      decide
    rw [hunits] at hinside
    have hlt := hinside.1.lt
    revert hlt
    decide
  cases hends with
  | counted hcount => exact absurd hcount (by decide)
  | free _ _ hfree => exact absurd hfree (by decide)
  | other _ _ _ h => exact hfits h
  | found _ _ _ h => exact hfits h

end FileManager
end UnixV6pp
